import Resumable.Analysis.Flow

/-!
# Metadata of analyzed methods

From the frames of a method follow the size of its operand stack and its stack map, which has the
frame of every label that execution can get to and that some instruction may jump to.  A stack map
that came with the method may say less than the frames do, but nothing else.
-/

namespace Resumable

/-- The greatest number of slots that the operand stack takes at any instruction. -/
def Frames.maxStack (frames : Frames) : Nat :=
  (frames.filterMap fun f => f.map Frame.stackSlots).foldl max 0

/-- The entries for the labels that some instruction may jump to, in the order of the body. -/
def Body.stackMap (b : Body) (frames : Frames) : List StackMapEntry :=
  let targets := b.instructions.flatMap Instruction.targets
  (b.instructions.zip frames).filterMap fun
    | (.label l, some f) => if l ∈ targets then some ⟨l, f⟩ else none
    | _ => none

/-- True if the recorded frame says no more than the analyzed one.  The last locals may be left
out. -/
def Frame.isConsistentWith (recorded analyzed : Frame) : Bool :=
  recorded.stack.length = analyzed.stack.length &&
    recorded.locals.length ≤ analyzed.locals.length &&
    (recorded.stack.zip analyzed.stack ++ recorded.locals.zip analyzed.locals).all
      fun (r, a) => r.isAssignableFrom a

namespace Method

/-- Compares one entry of the stack map with the frames. -/
def checkEntry (m : Method) (frames : Frames) (entry : StackMapEntry) : Except AnalysisError Unit :=
  match m.body.position? entry.label with
  | none => .error ⟨0, .labels (.undefined entry.label)⟩
  | some position =>
    match frames[position]?.join with
    | none => .ok ()
    | some f =>
      if entry.frame.isConsistentWith f then .ok ()
      else .error ⟨position, .stackMapMismatch entry.label⟩

/-- Compares the method's stack map with its frames.  Where execution can't get to there's nothing
to compare with. -/
def checkStackMap (m : Method) (frames : Frames) : Except AnalysisError Unit :=
  m.stackMap.forM (m.checkEntry frames)

/-- Analyzes the method and compares its stack map with its frames. -/
def verify (owner : String) (m : Method) : Except AnalysisError Unit := do
  let frames ← m.analyze owner
  m.checkStackMap frames

end Method

end Resumable
