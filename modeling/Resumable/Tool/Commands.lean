import Resumable.Instrumentation.Instrument
import Resumable.Tool.Arguments
import Resumable.Tool.Files
import Resumable.Unit.Listing

/-!
# The tool

The tool instruments the unit in a file, or lists it.  It writes no file before everything else has
gone well.
-/

namespace Resumable

namespace DecodeError

/-- The messages of the error and of the error that it comes from. -/
def causes (e : DecodeError) : List String :=
  e.message :: match e with
    | invalidDescriptor _ cause => [cause.message]
    | labels _ cause => [cause.message]
    | _ => []

end DecodeError

namespace InstrumentError

/-- The messages of the error and of the errors that it comes from. -/
def causes (e : InstrumentError) : List String :=
  e.message :: match e with
    | malformedInput cause => cause.causes
    | analysis _ _ cause => [cause.message]
    | _ => []

end InstrumentError

namespace Tool

def version : String := "Coil 0.3.0"

def help : String :=
  Text.join "\n"
    [version,
      "",
      "USAGE:",
      "    coil [FLAGS] <command> <input> [OPTIONS]",
      "",
      "COMMANDS:",
      "    instrument   Instruments the unit's eligible methods so that they can suspend and resume",
      "    dump         Prints the unit's methods and instructions",
      "",
      "FLAGS:",
      "    -v, --version            Prints version information",
      "    -h, --help               Prints help information",
      "",
      "INSTRUMENT OPTIONS:",
      "    -o, --output PATH        Where to write the instrumented unit (default: overwrite <input>)",
      "    -f, --force              Process the unit even if it has already been instrumented,",
      "                             instrumenting any eligible methods that were added since",
      "",
      "ARGS:",
      "    <input>      Path to a serialized unit",
      ""]

/-- Why the tool fails. -/
inductive Failure
  | usage (cause : UsageError)
  | read (path : String) (cause : FileError)
  | parse (path : String) (cause : DecodeError)
  | instrument (path : String) (cause : InstrumentError)
  | verify (path : String) (cause : InstrumentError)
  | write (path : String) (cause : FileError)
deriving DecidableEq

namespace Failure

/-- What the tool was about to do. -/
def context : Failure → String
  | usage cause => help ++ "\n\n" ++ cause.message
  | read path _ => s!"Failed to read '{path}'"
  | parse path _ => s!"Failed to parse '{path}'"
  | instrument path _ => s!"Failed to instrument '{path}'"
  | verify path _ => s!"Failed to verify the instrumented '{path}'"
  | write path _ => s!"Failed to write '{path}'"

/-- The messages of the errors that it comes from. -/
def causes : Failure → List String
  | usage _ => []
  | read _ cause | write _ cause => [cause.message]
  | parse _ cause => cause.causes
  | instrument _ cause | verify _ cause => cause.causes

/-- The message with `first` before its first line and blanks in place of it before the others. -/
def indented (first message : String) : String :=
  let blanks := String.ofList (List.replicate first.length ' ')
  first ++ Text.join ("\n" ++ blanks) (message.splitOn "\n")

/-- The causes, each on lines of its own, numbered if there are several. -/
def causeLines : List String → List String
  | [] => []
  | [cause] => [indented "    " cause]
  | causes => causes.mapIdx fun i cause => indented ("    " ++ toString i ++ ": ") cause

/-- What the tool tells of the failure. -/
def text (e : Failure) : String :=
  let causes := if e.causes.isEmpty then [] else "" :: "Caused by:" :: causeLines e.causes
  Text.join "\n" (("Error: " ++ e.context) :: causes ++ [""])

end Failure

/-- Ends with an output. -/
def finish (output : String) : Request := .done ⟨0, output, ""⟩

/-- Ends with a failure. -/
def fail (e : Failure) : Request := .done ⟨1, "", e.text⟩

/-- Reads the unit in a file. -/
def withUnit (path : String) (next : CompiledUnit → Request) : Request :=
  .read path fun
    | .error e => fail (.read path e)
    | .ok bytes =>
      match CompiledUnit.decode bytes with
      | .error e => fail (.parse path e)
      | .ok u => next u

/-- Instruments the unit in one file and writes it to another. -/
def instrument (input output : String) (force : Bool) : Request :=
  withUnit input fun u =>
    if u.flags.isInstrumented && !force then
      finish s!"'{u.name}' has already been instrumented, use --force to instrument it again\n"
    else
      let settings := { InstrumentSettings.standard with reinstrument := force }
      match u.instrument settings with
      | .error e => fail (.instrument input e)
      | .ok (count, instrumented) =>
        match instrumented.write settings with
        | .error e => fail (.verify input e)
        | .ok bytes =>
          .write output bytes fun
            | .error e => fail (.write output e)
            | .ok () => finish s!"Instrumented {count} method(s) in '{instrumented.name}'\n"

/-- Lists the unit in a file. -/
def dump (input : String) : Request := withUnit input fun u => finish u.listing

/-- Carries out a command. -/
def execute : Command → Request
  | .instrument input output force => instrument input (output.getD input) force
  | .dump input => dump input

/-- Does what the arguments demand. -/
def start (args : List String) : Request :=
  match Arguments.parse args with
  | .error e => fail (.usage e)
  | .ok demand =>
    if demand.help then finish (help ++ "\n")
    else if demand.version then finish (version ++ "\n")
    else
      match demand.command with
      | some command => execute command
      | none => fail (.usage .missingCommand)

end Tool

end Resumable
