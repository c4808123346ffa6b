import Resumable.Instruction.Basic
import Resumable.Number.Notation
import Resumable.Text.Quoted

/-!
# Listings of instructions

Each instruction is one line, except that a switch has a further line for each of its cases.  The
operands stand in a column of their own, and numbers and invocation kinds are filled up to seven
characters.
-/

namespace Resumable

namespace Constant

def text : Constant → String
  | null => "null"
  | int n => toString n.toInt
  | long n => toString n.toInt ++ "L"
  | float word => NumberStyle.constant.text .single word.toNat ++ "F"
  | double word => NumberStyle.constant.text .double word.toNat ++ "D"
  | string s => Text.quoted s

end Constant

namespace Instruction

/-- The instruction's operands, none if it has no column for them. -/
def operands? : Instruction → Option String
  | const value => some value.text
  | load kind index | store kind index => some s!"{kind.text} local: {index.toNat}"
  | increment index delta =>
    some ("local: " ++ Text.padRight 7 (toString index.toNat) ++ s!" delta: {delta.toInt}")
  | binary op kind => some s!"{kind.text} op: {op.text}"
  | negate kind => some kind.text
  | convert source target => some s!"{source.text} -> {target.text}"
  | compare kind nanIsGreater =>
    some (kind.text ++ " nan: " ++ if nanIsGreater then "greater" else "less")
  | ifZero condition target => some s!"{condition.text} 0 -> {target.text}"
  | ifCompare condition target => some s!"{condition.text} -> {target.text}"
  | ifSame same target => some ((if same then "==" else "!=") ++ " -> " ++ target.text)
  | ifNull null target => some ((if null then "null" else "nonnull") ++ " -> " ++ target.text)
  | goto target | jumpSubroutine target => some target.text
  | returnSubroutine index => some s!"local: {index.toNat}"
  | tableSwitch low otherwise _ =>
    some ("low: " ++ Text.padRight 7 (toString low.toInt) ++ s!" default: {otherwise.text}")
  | lookupSwitch otherwise _ => some s!"default: {otherwise.text}"
  | invoke kind method =>
    let mode := match kind with
      | .static => "static"
      | .virtual => "virtual"
    some (Text.padRight 7 mode ++ " " ++ method.text)
  | newArray type | checkCast type | instanceOf type => some type.text
  | arrayLoad kind | arrayStore kind | leave (some kind) => some kind.text
  | _ => none

/-- The cases of a switch, with the label that each jumps to. -/
def caseLines : Instruction → List String
  | tableSwitch low _ targets =>
    targets.mapIdx fun i target => s!"        {low.toInt + i} -> {target.text}"
  | lookupSwitch _ cases => cases.map fun (key, target) => s!"        {key.toInt} -> {target.text}"
  | _ => []

/-- The instruction's name in listings, where the comparison of references is cut short. -/
def listedName : Instruction → String
  | ifSame .. => "IfReference"
  | i => i.name

/-- The lines of the instruction in a listing. -/
def lines (i : Instruction) : List String :=
  match i with
  | label l => [l.text ++ ":"]
  | i =>
    let first := match i.operands? with
      | some operands => "    " ++ Text.padRight 15 i.listedName ++ " " ++ operands
      | none => "    " ++ i.listedName
    first :: i.caseLines

def text (i : Instruction) : String := Text.join "\n" i.lines

end Instruction

end Resumable
