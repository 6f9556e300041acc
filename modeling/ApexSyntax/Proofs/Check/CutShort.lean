-- Checks that a file cuts short. A check goes through the files kind by kind. The first file
-- that cannot be read ends it, and what was found in the files before that one is kept.
import ApexSyntax.Proofs.Check.FileRoots
import Mathlib.Data.List.TakeWhile

namespace ApexSyntax

namespace FileSystem

/-! ## Visits -/

/-- The file of a visit can be read. -/
def canVisit (fs : FileSystem) (v : FileKind × Path) : Bool := (fs.read v.2).isOk

/-- Why the file of a visit cannot be read. -/
def refusal? (fs : FileSystem) (v : FileKind × Path) : Option Failure :=
  match fs.read v.2 with
  | .error e => some (.unreadable v.2 e)
  | .ok _ => none

/-- The errors that a visit finds, none where it cannot read. -/
def found (fs : FileSystem) (root : Path) (v : FileKind × Path) : List Diagnostic :=
  (fs.checkFile root v.2 v.1).toOption.getD []

variable {fs : FileSystem} {root file : Path} {files : List Path} {k : FileKind}
  {kinds : List FileKind} {v : FileKind × Path} {visited : List (FileKind × Path)}

theorem refusal?_eq_none_iff : fs.refusal? v = none ↔ fs.canVisit v = true := by
  unfold canVisit refusal?
  cases fs.read v.2 <;> simp [Except.isOk, Except.toBool]

/-- A visit finds the errors in the text of its file. -/
theorem checkSource_found {bytes : List UInt8} (h : fs.read v.2 = .ok bytes) :
    checkSource (v.2.relative root) (Text.ofBytes bytes) v.1 false = .ok (fs.found root v) ∧
      fs.checkFile root v.2 v.1 = .ok (fs.found root v) := by
  obtain ⟨errors, hsource, hchecked⟩ := exists_checkFile h root v.1
  have hfound : fs.found root v = errors := by
    rw [found, hchecked]
    rfl
  rw [hfound]
  exact ⟨hsource, hchecked⟩

/-- What some visits make of the progress before them: they add the errors of those before the
first that cannot read, and end with the reason of that one. -/
structure Keeps (fs : FileSystem) (root : Path) (visited : List (FileKind × Path)) (s : Progress)
    (r : Progress × Option Failure) : Prop where
  errors : r.1.errors = s.errors ++ (visited.takeWhile fs.canVisit).flatMap (fs.found root)
  cause : r.2 = visited.findSome? fs.refusal?

namespace Keeps

variable {s s' : Progress} {r : Progress × Option Failure} {cause : Failure}

theorem nil (s : Progress) : Keeps fs root [] s (s, none) := ⟨by simp, rfl⟩

/-- Visits that all can read are followed by the others. -/
theorem append {behind : List (FileKind × Path)} (h : Keeps fs root visited s (s', none))
    (h' : Keeps fs root behind s' r) : Keeps fs root (visited ++ behind) s r := by
  have hnone : ∀ u ∈ visited, fs.refusal? u = none := List.findSome?_eq_none_iff.1 h.cause.symm
  have hall : ∀ u ∈ visited, fs.canVisit u = true := fun u hu =>
    refusal?_eq_none_iff.1 (hnone u hu)
  have herrors := h.errors
  rw [List.takeWhile_eq_self_iff.2 hall] at herrors
  refine ⟨?_, ?_⟩
  · rw [h'.errors, herrors, List.takeWhile_append_of_pos hall, List.flatMap_append,
      List.append_assoc]
  · rw [h'.cause, List.findSome?_append, ← h.cause]
    rfl

/-- Behind a visit that cannot read nothing happens. -/
theorem stop (h : Keeps fs root visited s (s', some cause)) (behind : List (FileKind × Path)) :
    Keeps fs root (visited ++ behind) s (s', some cause) := by
  obtain ⟨before, v, rest, rfl, hv, hnone⟩ := List.findSome?_eq_some_iff.1 h.cause.symm
  have hall : ∀ u ∈ before, fs.canVisit u = true := fun u hu =>
    refusal?_eq_none_iff.1 (hnone u hu)
  have hlast : ¬ fs.canVisit v = true := fun h => by
    rw [refusal?_eq_none_iff.2 h] at hv
    cases hv
  have htake : ∀ rest, (before ++ v :: rest).takeWhile fs.canVisit = before := fun rest => by
    rw [List.takeWhile_append_of_pos hall, List.takeWhile_cons_of_neg hlast, List.append_nil]
  refine ⟨?_, ?_⟩
  · have herrors := h.errors
    rw [htake] at herrors
    rw [List.append_assoc, List.cons_append, htake]
    exact herrors
  · rw [List.findSome?_append, ← h.cause]
    rfl

end Keeps

/-! ## Loops -/

namespace Keeps

variable {s : Progress} {r : Progress × Option Failure}

end Keeps

end FileSystem

end ApexSyntax
