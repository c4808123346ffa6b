import Resumable.Tool.Commands

/-!
# The command line

Carries out the tool's requests on real files, and prints its report.
-/

namespace Resumable

/-- The number of a system error, which may come negated. -/
def systemNumber (code : UInt32) : UInt32 := if code < 0x80000000 then code else -code

/-- The error of a real file. -/
def FileError.ofSystem : IO.Error → FileError
  | .noFileOrDirectory .. => .notFound
  | .permissionDenied .. => .permissionDenied
  | .inappropriateType _ code details =>
    if systemNumber code = 20 then .notDirectory
    else if systemNumber code = 21 then .isDirectory
    else .other details
  | .invalidArgument _ code details =>
    if systemNumber code = 36 then .nameTooLong else .other details
  | e => .other (toString e)

/-- Carries out a request. -/
def Request.perform : Request → IO Report
  | done report => return report
  | read path next => do
    let result ← try
        let contents ← IO.FS.readBinFile path
        pure (Except.ok contents.toList)
      catch e => pure (Except.error (FileError.ofSystem e))
    (next result).perform
  | write path bytes next => do
    let result ← try
        IO.FS.writeBinFile path (ByteArray.mk bytes.toArray)
        pure (Except.ok ())
      catch e => pure (Except.error (FileError.ofSystem e))
    (next result).perform

end Resumable

/-- Runs the tool on the arguments of the command line. -/
def main (args : List String) : IO UInt32 := do
  let report ← (Resumable.Tool.start args).perform
  IO.print report.output
  IO.eprint report.errors
  return report.code.toUInt32
