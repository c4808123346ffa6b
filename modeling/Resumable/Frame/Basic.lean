import Resumable.Frame.Value
import Resumable.Text.Digits

/-!
# Frames

A frame says what is known of the local slots and of the operand stack at one instruction.  A wide
local takes two slots, the second of which is unknown; on the stack every value is one entry.  Paths
that join merge their frames, which fails if the stacks differ in height or hold values that nothing
but the unknown value stands above.
-/

namespace Resumable

/-- What is known of the local slots, by index, and of the operand stack, from its top down. -/
structure Frame where
  locals : List FrameValue
  stack : List FrameValue
deriving DecidableEq

/-- Why two frames can't be merged. -/
inductive MergeError
  | heights (expected found : Nat)
  | values (expected found : FrameValue)
deriving DecidableEq

namespace Frame

/-- The number of slots that the operand stack takes. -/
def stackSlots (f : Frame) : Nat := f.stack.foldr (fun v n => v.slots + n) 0

/-- The values between brackets, with blanks between them. -/
def valuesText (values : List FrameValue) : String :=
  "[" ++ Text.join " " (values.map FrameValue.text) ++ "]"

/-- The locals, then the operand stack from its bottom up. -/
def text (f : Frame) : String :=
  "locals: " ++ valuesText f.locals ++ " stack: " ++ valuesText f.stack.reverse

/-- Merges two operand stacks of one height, from the bottom up. -/
def mergeStacks : (known incoming : List FrameValue) → Except MergeError (List FrameValue)
  | a :: known, b :: incoming => do
    let below ← mergeStacks known incoming
    if a.merge b = .top then throw (.values a b)
    return a.merge b :: below
  | _, _ => return []

/-- Merges the known locals with those that arrive, one by one; one that nothing arrives for
stays. -/
def mergeLocals : (known incoming : List FrameValue) → List FrameValue
  | a :: known, b :: incoming => a.merge b :: mergeLocals known incoming
  | known, _ => known

/-- Merges a frame with another one that arrives at the same instruction. -/
def merge (known incoming : Frame) : Except MergeError Frame :=
  if known.stack.length = incoming.stack.length then do
    let stack ← mergeStacks known.stack incoming.stack
    return ⟨mergeLocals known.locals incoming.locals, stack⟩
  else throw (.heights known.stack.length incoming.stack.length)

/-- True if one of the known values becomes another one when it's merged with what arrives for it. -/
def changes : (known incoming : List FrameValue) → Bool
  | a :: known, b :: incoming => a.merge b ≠ a || changes known incoming
  | _, _ => false

/-- Lets a frame arrive where another one is known, and tells whether that one has changed. -/
def mergeFrom (known incoming : Frame) : Except MergeError (Bool × Frame) := do
  let merged ← known.merge incoming
  return (changes known.stack incoming.stack || changes known.locals incoming.locals, merged)

end Frame

end Resumable
