/-!
# Arguments

Flags and options are taken out of the arguments one after another, wherever they stand; what is left
over is read in order.  One-letter flags may be put together after one dash, and the value of a
one-letter option may follow its letter at once.
-/

namespace Resumable

/-- What's wrong with the arguments. -/
inductive UsageError
  | missingValue (option : String)
  | missingInput
  | optionsOfDump
  | unknownCommand (name : String)
  | unsupported (argument : String)
  | missingCommand
deriving DecidableEq

def UsageError.message : UsageError → String
  | missingValue option => s!"the '{option}' option doesn't have an associated value"
  | missingInput => "free-standing argument is missing"
  | optionsOfDump => "'dump' doesn't accept --output or --force"
  | unknownCommand name => s!"Unknown command: {name}"
  | unsupported argument => s!"Unsupported argument: {argument}"
  | missingCommand => "Missing command"

/-- What the tool is asked to do. -/
inductive Command
  | instrument (input : String) (output : Option String) (force : Bool)
  | dump (input : String)
deriving DecidableEq

/-- The arguments, as they're understood. -/
structure Demand where
  help : Bool
  version : Bool
  command : Option Command
deriving DecidableEq

namespace Arguments

/-- True for arguments with letters after a single dash. -/
def isLetters (argument : String) : Bool :=
  match argument.toList with
  | '-' :: '-' :: _ => false
  | '-' :: _ => true
  | _ => false

/-- Takes a letter out of the first argument that has it among the letters after a single dash. -/
def takeLetter (letter : Char) : List String → Bool × List String
  | [] => (false, [])
  | argument :: rest =>
    if isLetters argument && argument.toList.contains letter then
      (true, String.ofList (argument.toList.erase letter) :: rest)
    else
      let (found, rest) := takeLetter letter rest
      (found, argument :: rest)

/-- Takes out a flag: the first argument that is its short form, or else its long form, or else has
its letter among others. -/
def takeFlag (letter : Char) (long : String) (args : List String) : Bool × List String :=
  let short := String.ofList ['-', letter]
  if args.contains short then (true, args.erase short)
  else if args.contains long then (true, args.erase long)
  else takeLetter letter args

/-- The value that follows an option's letter at once, which may stand in quotes. -/
def attachedValue? (value : List Char) : Option String :=
  match value with
  | [] | '=' :: _ => none
  | first :: rest =>
    if first = '"' ∨ first = '\'' then
      match rest.reverse with
      | [] => none
      | last :: quoted =>
        if last = first ∧ quoted ≠ [] then some (String.ofList quoted.reverse) else none
    else some (String.ofList value)

/-- Takes out the first argument that begins with an option's short form and has its value. -/
def takeAttached (short : String) :
    List String → Except UsageError (Option String × List String)
  | [] => .ok (none, [])
  | argument :: rest =>
    if short.toList.isPrefixOf argument.toList then
      match attachedValue? (argument.toList.drop short.length) with
      | some value => .ok (some value, rest)
      | none => .error (.missingValue short)
    else do
      let (value, rest) ← takeAttached short rest
      return (value, argument :: rest)

/-- Takes out an option that is an argument of its own, and the argument after it, which is its
value. -/
def takeSeparate (option : String) :
    List String → Except UsageError (Option String × List String)
  | [] => .ok (none, [])
  | argument :: rest =>
    if argument = option then
      match rest with
      | [] => .error (.missingValue option)
      | value :: rest => .ok (some value, rest)
    else do
      let (value, rest) ← takeSeparate option rest
      return (value, argument :: rest)

/-- Takes out an option with its value. -/
def takeOption (short long : String) (args : List String) :
    Except UsageError (Option String × List String) :=
  if args.contains short then takeSeparate short args
  else if args.contains long then takeSeparate long args
  else takeAttached short args

/-- Takes the command's name, unless the arguments begin with a dash. -/
def takeCommand : List String → Option String × List String
  | [] => (none, [])
  | name :: rest =>
    if name.toList.head? = some '-' then (none, name :: rest) else (some name, rest)

/-- Takes the path of the unit. -/
def takeInput : List String → Except UsageError (String × List String)
  | [] => .error .missingInput
  | path :: rest => .ok (path, rest)

/-- The command, and the arguments that it leaves over. -/
def command (force : Bool) (output : Option String) (args : List String) :
    Except UsageError (Option Command × List String) :=
  match takeCommand args with
  | (none, rest) => return (none, rest)
  | (some "instrument", rest) => do
    let (input, rest) ← takeInput rest
    return (some (.instrument input output force), rest)
  | (some "dump", rest) => do
    if output.isSome || force then throw .optionsOfDump
    let (input, rest) ← takeInput rest
    return (some (.dump input), rest)
  | (some name, _) => throw (.unknownCommand name)

/-- Understands the arguments, of which none may be left over. -/
def parse (args : List String) : Except UsageError Demand := do
  let (help, args) := takeFlag 'h' "--help" args
  let (version, args) := takeFlag 'v' "--version" args
  let (force, args) := takeFlag 'f' "--force" args
  let (output, args) ← takeOption "-o" "--output" args
  let (command, rest) ← command force output args
  match rest with
  | argument :: _ => throw (.unsupported argument)
  | [] => return ⟨help, version, command⟩

end Arguments

end Resumable
