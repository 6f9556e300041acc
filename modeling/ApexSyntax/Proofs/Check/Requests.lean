-- Requests for extensions. A request is read entry by entry, and refused for the first entry
-- that no kind of file is written as. What is refused is refused before any file system is
-- looked at, so the answer is the same for all of them.
import ApexSyntax.Check.Project
import ApexSyntax.Proofs.Check.Directories

namespace ApexSyntax

namespace FileKind

/-- A kind is written as its extension, with the leading dot or without. -/
def IsWritten (k : FileKind) (written : String) : Prop :=
  written = k.extension ∨ "." ++ written = k.extension

/-- Some kind of file is written so. -/
def IsKnown (written : String) : Prop := ∃ k : FileKind, k.IsWritten written

variable {k : FileKind} {written e : String} {extensions : List String} {kinds : List FileKind}

/-! ## Entries -/

theorem dotted_eq_extension_iff : dotted written = k.extension ↔ k.IsWritten written := by
  obtain ⟨e, he, hk⟩ := k.extension_eq
  by_cases hdot : written.toList.head? = some '.'
  · have hnot : "." ++ written ≠ k.extension := by
      intro h
      rw [hk, ← String.toList_inj, String.toList_append, String.toList_append] at h
      have hwritten : written = e := String.toList_inj.1 (List.append_cancel_left h)
      subst hwritten
      exact he (List.mem_of_mem_head? hdot)
    rw [dotted, if_pos hdot]
    exact ⟨Or.inl, fun h => h.resolve_right hnot⟩
  · have hnot : written ≠ k.extension := by
      rintro rfl
      exact hdot (by rw [hk]; simp)
    rw [dotted, if_neg hdot]
    exact ⟨Or.inr, fun h => h.resolve_left hnot⟩

theorem ofExtension?_eq_some_iff : ofExtension? written = some k ↔ k.IsWritten written := by
  rw [← dotted_eq_extension_iff]
  constructor
  · intro h
    have hfound := List.find?_some h
    exact (of_decide_eq_true hfound).symm
  · intro h
    exact ofExtension?_of_dotted h.symm

theorem ofExtension?_eq_none_iff : ofExtension? written = none ↔ ¬ IsKnown written := by
  simp only [Option.eq_none_iff_forall_ne_some, ne_eq, ofExtension?_eq_some_iff, IsKnown,
    not_exists]

/-! ## Requests -/

/-- A request that is understood gives a kind for each entry. -/
theorem ofExtensions_eq_ok_iff :
    ofExtensions extensions = .ok kinds ↔
      List.Forall₂ (fun written k => k.IsWritten written) extensions kinds := by
  induction extensions generalizing kinds with
  | nil => cases kinds <;> simp [ofExtensions]
  | cons written rest ih =>
    cases hk : ofExtension? written with
    | none =>
      have hunknown := ofExtension?_eq_none_iff.1 hk
      simp only [ofExtensions, hk, reduceCtorEq, false_iff]
      intro h
      cases h with
      | cons hwritten _ => exact hunknown ⟨_, hwritten⟩
    | some k =>
      have hwritten : ∀ k', k'.IsWritten written ↔ k = k' := fun k' => by
        rw [← ofExtension?_eq_some_iff, hk, Option.some.injEq]
      cases kinds with
      | nil => cases hrest : ofExtensions rest <;> simp [ofExtensions, hk, hrest, Except.map]
      | cons k' kinds =>
        rw [List.forall₂_cons, hwritten, ← ih]
        cases hrest : ofExtensions rest <;> simp [ofExtensions, hk, hrest, Except.map]

/-- A request is refused for its first unknown entry. -/
theorem ofExtensions_eq_error_iff :
    ofExtensions extensions = .error e ↔
      ∃ known behind, extensions = known ++ e :: behind ∧
        (∀ written ∈ known, IsKnown written) ∧ ¬ IsKnown e := by
  induction extensions with
  | nil => simp [ofExtensions]
  | cons written rest ih =>
    cases hk : ofExtension? written with
    | none =>
      have hunknown := ofExtension?_eq_none_iff.1 hk
      simp only [ofExtensions, hk, Except.error.injEq]
      constructor
      · rintro rfl
        exact ⟨[], rest, rfl, by simp, hunknown⟩
      · rintro ⟨_ | ⟨first, known⟩, behind, hsplit, hknown, -⟩
        · exact (List.cons.inj hsplit).1
        · cases hsplit
          exact absurd (hknown _ List.mem_cons_self) hunknown
    | some k =>
      have hknown : IsKnown written := ⟨k, ofExtension?_eq_some_iff.1 hk⟩
      have hcons : ofExtensions (written :: rest) = .error e ↔ ofExtensions rest = .error e := by
        cases hrest : ofExtensions rest <;> simp [ofExtensions, hk, hrest, Except.map]
      rw [hcons, ih]
      constructor
      · rintro ⟨known, behind, rfl, hall, he⟩
        exact ⟨written :: known, behind, rfl, List.forall_mem_cons.2 ⟨hknown, hall⟩, he⟩
      · rintro ⟨_ | ⟨first, known⟩, behind, hsplit, hall, he⟩
        · obtain ⟨rfl, rfl⟩ := List.cons.inj hsplit
          exact absurd hknown he
        · obtain ⟨rfl, rfl⟩ := List.cons.inj hsplit
          exact ⟨known, behind, rfl, (List.forall_mem_cons.1 hall).2, he⟩

/-- A request is understood where all of its entries are known. -/
theorem exists_ofExtensions_iff :
    (∃ kinds, ofExtensions extensions = .ok kinds) ↔ ∀ written ∈ extensions, IsKnown written := by
  constructor
  · rintro ⟨kinds, h⟩
    induction ofExtensions_eq_ok_iff.1 h with
    | nil => simp
    | cons hwritten hrest ih =>
      exact List.forall_mem_cons.2 ⟨⟨_, hwritten⟩, ih (ofExtensions_eq_ok_iff.2 hrest)⟩
  · intro h
    cases hread : ofExtensions extensions with
    | ok kinds => exact ⟨kinds, rfl⟩
    | error e =>
      obtain ⟨known, behind, rfl, -, he⟩ := ofExtensions_eq_error_iff.1 hread
      exact absurd (h e (by simp)) he

/-- A request for something is read entry by entry. -/
theorem requested_of_ne_nil (h : extensions ≠ []) :
    requested extensions = ofExtensions extensions := by
  cases extensions with
  | nil => exact absurd rfl h
  | cons written rest => rfl

end FileKind

namespace FileSystem

open FileKind

variable {extensions : List String} {e : String}

/-! ## Refused requests -/

theorem checkPath_of_refused (h : requested extensions = .error e) (fs : FileSystem)
    (root : Path) :
    fs.checkPath root extensions =
      (⟨.failed, extensions, []⟩, [.refused (.unknownExtension e)]) := by
  rw [checkPath, h]

/-- A check of a project with a refused request is one of the whole root. -/
theorem checkProject_of_refused (h : requested extensions = .error e) (fs : FileSystem)
    (root : Path) (depth : Nat) :
    fs.checkProject root extensions depth =
      ([⟨fs.projectName root, ".", none, ⟨.failed, extensions, []⟩⟩],
        [.refused (.unknownExtension e)]) := by
  rw [checkProject, h]
  simp only [checkPath_of_refused h, wholeResult]

/-- A request for something is understood exactly where every entry is the extension of a kind,
with its dot or without, and gives each kind in the place of its entry. Otherwise it is refused
for the first entry that is unknown. A check with a refused request has failed in every file
system alike: it tells of that entry alone, finds nothing, and repeats the request as it was
written. This is also the one result for a project, of which only the name depends on the file
system. -/
theorem unknown_extension_aborts (hne : extensions ≠ []) :
    (∀ kinds, requested extensions = .ok kinds ↔
      List.Forall₂ (fun written k => k.IsWritten written) extensions kinds) ∧
    ((∃ kinds, requested extensions = .ok kinds) ↔ ∀ written ∈ extensions, IsKnown written) ∧
    (∀ e, requested extensions = .error e ↔
      ∃ known behind, extensions = known ++ e :: behind ∧
        (∀ written ∈ known, IsKnown written) ∧ ¬ IsKnown e) ∧
    ∀ e, requested extensions = .error e → ∀ (fs fs' : FileSystem) (root : Path),
      fs.checkPath root extensions = fs'.checkPath root extensions ∧
      fs.checkPath root extensions =
        (⟨.failed, extensions, []⟩, [.refused (.unknownExtension e)]) ∧
      ∀ depth, fs.checkProject root extensions depth =
        ([⟨fs.projectName root, ".", none, ⟨.failed, extensions, []⟩⟩],
          [.refused (.unknownExtension e)]) := by
  rw [requested_of_ne_nil hne]
  refine ⟨fun kinds => ofExtensions_eq_ok_iff, exists_ofExtensions_iff,
    fun e => ofExtensions_eq_error_iff, fun e h fs fs' root => ?_⟩
  have hrefused : requested extensions = .error e := (requested_of_ne_nil hne).trans h
  have hcheck := checkPath_of_refused hrefused fs root
  exact ⟨hcheck.trans (checkPath_of_refused hrefused fs' root).symm, hcheck,
    checkProject_of_refused hrefused fs root⟩

/-- The second of three entries is unknown, and the third one is not named. -/
theorem unknown_extension_aborts_java :
    ["cls", "java", "xml"] ≠ [] ∧ requested ["cls", "java", "xml"] = .error "java" ∧
    ∀ (fs : FileSystem) (root : Path),
      fs.checkPath root ["cls", "java", "xml"] =
        (⟨.failed, ["cls", "java", "xml"], []⟩, [.refused (.unknownExtension "java")]) := by
  have hne : ["cls", "java", "xml"] ≠ [] := nofun
  have hrefused : requested ["cls", "java", "xml"] = .error "java" := by rfl
  obtain ⟨-, -, -, haborts⟩ := unknown_extension_aborts hne
  exact ⟨hne, hrefused, fun fs root => (haborts "java" hrefused fs fs root).2.1⟩

end FileSystem

end ApexSyntax
