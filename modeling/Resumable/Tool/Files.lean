import Resumable.Unit.Encoding

/-!
# Files

The tool asks for files to be read and written, and goes on by what comes of it.  Put this way it's a
plain value, which can be carried out on real files or on the files of a `Folder`.
-/

namespace Resumable

/-- Why a file can't be read or written. -/
inductive FileError
  | notFound
  | permissionDenied
  | notDirectory
  | isDirectory
  | nameTooLong
  | other (message : String)
deriving DecidableEq

def FileError.message : FileError → String
  | notFound => "No such file or directory (os error 2)"
  | permissionDenied => "Permission denied (os error 13)"
  | notDirectory => "Not a directory (os error 20)"
  | isDirectory => "Is a directory (os error 21)"
  | nameTooLong => "File name too long (os error 36)"
  | other message => message

/-- What the tool leaves to whoever has called it. -/
structure Report where
  code : UInt8
  output : String
  errors : String
deriving DecidableEq

/-- What the tool wants done next, and how it goes on. -/
inductive Request
  | done (report : Report)
  | read (path : String) (next : Except FileError Bytes → Request)
  | write (path : String) (bytes : Bytes) (next : Except FileError Unit → Request)

/-- The files in a directory, by name.  A file in a directory above goes by `../f`, `../../f` and so on,
one in the root by `/f`.  There are no other directories. -/
structure Folder where
  files : List (String × Bytes)
deriving DecidableEq

/-- Where a path leads. -/
inductive Place
  | directory
  /-- To a name in the directory whose files go by names that start with `above`, and on to `rest`. -/
  | entry (above name : String) (rest : List String)
deriving DecidableEq

namespace Place

/-- The most bytes of a name. -/
def longestName : Nat := 255

/-- The most bytes of a path. -/
def longestPath : Nat := 4095

/-- One directory further up.  The root is in itself. -/
def up (above : String) : String := if above = "/" then above else above ++ "../"

/-- Follows the parts of a path between its slashes, up to the first name. -/
def ofParts (above : String) : List String → Place
  | [] => .directory
  | part :: rest =>
    if part = "" ∨ part = "." then ofParts above rest
    else if part = ".." then ofParts (up above) rest
    else .entry above part rest

/-- The name of a file, put after that of the directory. -/
def join (above name : String) : Except FileError String :=
  if longestName < name.utf8ByteSize then .error .nameTooLong else .ok (above ++ name)

/-- Where a path leads, as seen from the folder. -/
def ofPath (path : String) : Except FileError Place :=
  if path = "" then .error .notFound
  else if longestPath < path.utf8ByteSize then .error .nameTooLong
  else
    match path.splitOn "/" with
    | "" :: parts => .ok (ofParts "/" parts)
    | parts => .ok (ofParts "" parts)

end Place

namespace Folder

/-- The contents of the file with the given name. -/
def file? (d : Folder) (name : String) : Option Bytes := d.files.lookup name

/-- The folder with a new or changed file. -/
def put (d : Folder) (name : String) (bytes : Bytes) : Folder :=
  if (d.file? name).isSome then
    { files := d.files.map fun (n, old) => if n = name then (n, bytes) else (n, old) }
  else { files := d.files ++ [(name, bytes)] }

/-- The contents of the file with the given name, which has to be there. -/
def find (d : Folder) (name : String) : Except FileError Bytes :=
  match d.file? name with
  | some bytes => .ok bytes
  | none => .error .notFound

/-- Reads a file.  A path that goes on after a name takes it for a directory's. -/
def read (d : Folder) (path : String) : Except FileError Bytes := do
  match ← Place.ofPath path with
  | .directory => .error .isDirectory
  | .entry above name rest =>
    let bytes ← d.find (← Place.join above name)
    if rest = [] then .ok bytes else .error .notDirectory

/-- Writes a file.  A slash after its name makes it a directory's name, whether there's something of
that name or not. -/
def write (d : Folder) (path : String) (bytes : Bytes) : Except FileError Folder := do
  match ← Place.ofPath path with
  | .directory => .error .isDirectory
  | .entry above name rest =>
    if rest = [] then
      let name ← Place.join above name
      .ok (d.put name bytes)
    else if rest.all (· = "") then .error .isDirectory
    else
      let _ ← d.find (← Place.join above name)
      .error .notDirectory

end Folder

/-- Carries out a request on the files of a folder. -/
def Request.run (d : Folder) : Request → Report × Folder
  | done report => (report, d)
  | read path next => (next (d.read path)).run d
  | write path bytes next =>
    match d.write path bytes with
    | .ok changed => (next (.ok ())).run changed
    | .error e => (next (.error e)).run d

end Resumable
