-- Trees as file systems hold them: what stands in a directory has a name of its own.
-- A location leads to a node step by step, and no location is longer than the tree is
-- high.
import ApexSyntax.Proofs.FileSystem.Spellings

namespace ApexSyntax

namespace Node

/-- In every directory of the tree the names are entry names, each of one entry. -/
inductive Proper : Node → Prop where
  | file (bytes : List UInt8) : Proper (file bytes)
  | link (target : String) : Proper (link target)
  | dir {es : List (String × Node)} (names : ∀ e ∈ es, IsEntryName e.1)
      (distinct : es.Pairwise fun e e' => e.1 ≠ e'.1) (entries : ∀ e ∈ es, Proper e.2) :
      Proper (dir es)

variable {n m : Node} {es : List (String × Node)} {name : String} {loc rest : Location}

/-! ## Entries -/

theorem mem_of_child? (h : n.child? name = some m) :
    n = .dir n.entries ∧ (name, m) ∈ n.entries := by
  cases n with
  | dir es =>
    obtain ⟨front, back, hes, -⟩ := List.lookup_eq_some_iff.1 h
    exact ⟨rfl, hes ▸ List.mem_append_right _ List.mem_cons_self⟩
  | file bytes => simp [child?, entries] at h
  | link target => simp [child?, entries] at h

theorem Proper.isEntryName (hn : n.Proper) (h : (name, m) ∈ n.entries) : IsEntryName name := by
  cases hn with
  | dir names distinct entries => exact names _ h
  | file bytes => cases h
  | link target => cases h

theorem Proper.entry (hn : n.Proper) (h : (name, m) ∈ n.entries) : m.Proper := by
  cases hn with
  | dir names distinct entries => exact entries _ h
  | file bytes => cases h
  | link target => cases h

theorem Proper.distinct (hn : n.Proper) : n.entries.Pairwise fun e e' => e.1 ≠ e'.1 := by
  cases hn with
  | dir names distinct entries => exact distinct
  | file bytes => exact .nil
  | link target => exact .nil

/-- A name stands for one entry. -/
theorem Proper.child?_eq_some_iff (hn : n.Proper) :
    n.child? name = some m ↔ (name, m) ∈ n.entries := by
  constructor
  · exact fun h => (mem_of_child? h).2
  · intro h
    obtain ⟨front, back, hes⟩ := List.append_of_mem h
    refine List.lookup_eq_some_iff.2 ⟨front, back, hes, fun e he => ?_⟩
    have hdistinct := hn.distinct
    rw [hes, List.pairwise_append] at hdistinct
    simpa using (hdistinct.2.2 e he _ List.mem_cons_self).symm

/-! ## Locations -/

theorem at?_append : n.at? (loc ++ rest) = (n.at? loc).bind (·.at? rest) := by
  induction loc generalizing n with
  | nil => rfl
  | cons name loc ih =>
    cases hc : n.child? name <;> simp [at?, hc, ih]

theorem at?_concat : n.at? (loc ++ [name]) = (n.at? loc).bind (·.child? name) := by
  rw [at?_append]
  cases n.at? loc with
  | none => rfl
  | some m => simp [at?]

theorem Proper.at? (hn : n.Proper) (h : n.at? loc = some m) : m.Proper := by
  induction loc generalizing n with
  | nil => exact Option.some.inj h ▸ hn
  | cons name loc ih =>
    obtain ⟨next, hnext, hm⟩ := Option.bind_eq_some_iff.1 h
    exact ih (hn.entry (mem_of_child? hnext).2) hm

/-- The way to a node is made of entry names. -/
theorem Proper.isEntryName_of_at? (hn : n.Proper) (h : n.at? loc = some m) :
    ∀ name ∈ loc, IsEntryName name := by
  induction loc generalizing n with
  | nil => simp
  | cons name loc ih =>
    obtain ⟨next, hnext, hm⟩ := Option.bind_eq_some_iff.1 h
    have hmem := (mem_of_child? hnext).2
    exact List.forall_mem_cons.2 ⟨hn.isEntryName hmem, ih (hn.entry hmem) hm⟩

theorem exists_dir_of_isDir (h : n.isDir = true) : ∃ es, n = .dir es := by
  cases n with
  | dir es => exact ⟨es, rfl⟩
  | file bytes => cases h
  | link target => cases h

/-- Beyond a file or a link there is nothing. -/
theorem eq_nil_of_at? (hn : n.isDir = false) (h : n.at? loc = some m) : loc = [] := by
  cases loc with
  | nil => rfl
  | cons name loc =>
    obtain ⟨next, hnext, -⟩ := Option.bind_eq_some_iff.1 h
    rw [(mem_of_child? hnext).1] at hn
    cases hn

/-! ## Heights -/

theorem height_le_heights {e : String × Node} (h : e ∈ es) : e.2.height ≤ heights es := by
  induction es with
  | nil => cases h
  | cons e' es ih =>
    rw [heights]
    rcases List.mem_cons.1 h with rfl | h
    · exact Nat.le_max_left ..
    · exact Nat.le_trans (ih h) (Nat.le_max_right ..)

theorem height_lt_of_entry (h : (name, m) ∈ n.entries) : m.height < n.height := by
  cases n with
  | dir es => exact Nat.lt_succ_of_le (height_le_heights h)
  | file bytes => cases h
  | link target => cases h

theorem height_le_of_at? (h : n.at? loc = some m) : m.height ≤ n.height := by
  induction loc generalizing n with
  | nil => exact Option.some.inj h ▸ Nat.le_refl _
  | cons name loc ih =>
    obtain ⟨next, hnext, hm⟩ := Option.bind_eq_some_iff.1 h
    exact Nat.le_trans (ih hm) (Nat.le_of_lt (height_lt_of_entry (mem_of_child? hnext).2))

end Node

end ApexSyntax
