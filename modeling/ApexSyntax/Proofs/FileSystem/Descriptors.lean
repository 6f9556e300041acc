-- The search for the descriptor of a project: depth first, at most so many directories
-- down, through what is neither hidden nor a link. Of all directories that hold a
-- descriptor it finds the one whose names come first.
import Mathlib.Order.Bounds.Defs
import Mathlib.Data.String.Basic
import ApexSyntax.Project.Packages
import ApexSyntax.Proofs.FileSystem.Walks

namespace ApexSyntax

/-! ## Entries in the order of the search -/

section Entries

variable {es : List (String × Node)} {e : String × Node}

theorem mem_visibleEntries : e ∈ visibleEntries es ↔ e ∈ es ∧ Path.isHidden e.1 = false := by
  simp [visibleEntries]

theorem visibleEntries_pairwise_le : (visibleEntries es).Pairwise fun e e' => e.1 ≤ e'.1 := by
  have htrans : ∀ a b c : String × Node, decide (a.1 ≤ b.1) = true → decide (b.1 ≤ c.1) = true →
      decide (a.1 ≤ c.1) = true := by
    intro a b c hab hbc
    exact decide_eq_true (le_trans (of_decide_eq_true hab) (of_decide_eq_true hbc))
  have htotal : ∀ a b : String × Node, (decide (a.1 ≤ b.1) || decide (b.1 ≤ a.1)) = true := by
    intro a b
    simpa using le_total a.1 b.1
  exact (List.pairwise_mergeSort htrans htotal _).imp of_decide_eq_true

/-- Each name that is searched stands before the greater ones. -/
theorem visibleEntries_pairwise_lt (hdistinct : es.Pairwise fun e e' => e.1 ≠ e'.1) :
    (visibleEntries es).Pairwise fun e e' => e.1 < e'.1 := by
  have hne : (visibleEntries es).Pairwise fun e e' => e.1 ≠ e'.1 :=
    ((List.mergeSort_perm ..).pairwise_iff fun h => h.symm).2 (hdistinct.filter _)
  exact (visibleEntries_pairwise_le.and hne).imp fun h => lt_of_le_of_ne h.1 h.2

end Entries

namespace Node

/-! ## Directories that hold a descriptor -/

/-- A directory that holds a descriptor, at most `depth` names below a node. Every name on
the way is one of a directory, and none is hidden. -/
structure HoldsDescriptor (n : Node) (depth : Nat) (names : Location) : Prop where
  near : names.length ≤ depth
  visible : ∀ name ∈ names, Path.isHidden name = false
  holds : ∃ es, n.at? names = some (.dir es) ∧ ((dir es).child? descriptorName).isSome = true

variable {n c : Node} {depth : Nat} {name : String} {names : Location}

theorem exists_dir_of_child? (h : (n.child? name).isSome = true) : ∃ es, n = .dir es := by
  obtain ⟨m, hm⟩ := Option.isSome_iff_exists.1 h
  exact ⟨_, (mem_of_child? hm).1⟩

theorem holdsDescriptor_nil :
    n.HoldsDescriptor depth [] ↔ (n.child? descriptorName).isSome = true := by
  constructor
  · rintro ⟨-, -, es, hat, hsome⟩
    exact Option.some.inj hat ▸ hsome
  · intro hsome
    obtain ⟨es, rfl⟩ := exists_dir_of_child? hsome
    exact ⟨Nat.zero_le _, by simp, es, rfl, hsome⟩

theorem not_holdsDescriptor_zero_cons : ¬ n.HoldsDescriptor 0 (name :: names) := fun h => by
  simpa using h.near

/-- One name down, there is one directory less to go. -/
theorem holdsDescriptor_succ_cons : n.HoldsDescriptor (depth + 1) (name :: names) ↔
    Path.isHidden name = false ∧ ∃ c, n.child? name = some c ∧ c.HoldsDescriptor depth names := by
  constructor
  · rintro ⟨hnear, hvisible, es, hat, hsome⟩
    obtain ⟨hname, hnames⟩ := List.forall_mem_cons.1 hvisible
    obtain ⟨c, hc, hat⟩ := Option.bind_eq_some_iff.1 hat
    exact ⟨hname, c, hc, Nat.le_of_succ_le_succ hnear, hnames, es, hat, hsome⟩
  · rintro ⟨hname, c, hc, hnear, hvisible, es, hat, hsome⟩
    exact ⟨Nat.succ_le_succ hnear, List.forall_mem_cons.2 ⟨hname, hvisible⟩, es,
      Option.bind_eq_some_iff.2 ⟨c, hc, hat⟩, hsome⟩

theorem HoldsDescriptor.isDir (h : n.HoldsDescriptor depth names) : n.isDir = true := by
  obtain ⟨es, hat, -⟩ := h.holds
  cases hn : n.isDir with
  | true => rfl
  | false =>
    obtain rfl := eq_nil_of_at? hn hat
    cases hat
    cases hn

/-! ## The first of them -/

/-- What a search gives: the descriptor in the first directory that holds one. A directory
comes before those below it, else the names decide, one by one. -/
def FindsFirst (n : Node) (depth : Nat) : Option Location → Prop
  | none => ∀ names, ¬ n.HoldsDescriptor depth names
  | some found => ∃ names, IsLeast {names | n.HoldsDescriptor depth names} names ∧
      found = names ++ [descriptorName]

theorem findsFirst_here (h : (n.child? descriptorName).isSome = true) :
    n.FindsFirst depth (some [descriptorName]) :=
  ⟨[], ⟨holdsDescriptor_nil.2 h, fun names _ => not_lt.1 (List.not_lt_nil names)⟩, rfl⟩

/-- The descriptors below one entry. Nothing is below a file or a link. -/
def descriptorBelow? (depth : Nat) (e : String × Node) : Option Location :=
  if e.2.isDir then (e.2.descriptor? depth).map (e.1 :: ·) else none

theorem descriptor?_succ : n.descriptor? (depth + 1) =
    if (n.child? descriptorName).isSome then some [descriptorName]
    else (visibleEntries n.entries).findSome? (descriptorBelow? depth) := by
  rw [descriptor?]
  rfl

/-- Nothing is found below an entry where no directory below it holds a descriptor. -/
theorem not_holdsDescriptor_of_below (ih : c.FindsFirst depth (c.descriptor? depth))
    (h : descriptorBelow? depth (name, c) = none) : ¬ c.HoldsDescriptor depth names := by
  intro hholds
  rw [descriptorBelow?, if_pos hholds.isDir, Option.map_eq_none_iff] at h
  rw [h] at ih
  exact ih names hholds

/-- What is found below an entry is in the first directory below it. -/
theorem isLeast_of_below {found : Location} (ih : c.FindsFirst depth (c.descriptor? depth))
    (h : descriptorBelow? depth (name, c) = some found) :
    ∃ names, IsLeast {names | c.HoldsDescriptor depth names} names ∧
      found = name :: names ++ [descriptorName] := by
  simp only [descriptorBelow?, Option.ite_none_right_eq_some, Option.map_eq_some_iff] at h
  obtain ⟨-, below, hbelow, rfl⟩ := h
  rw [hbelow] at ih
  obtain ⟨names, hleast, rfl⟩ := ih
  exact ⟨names, hleast, rfl⟩

/-- The search finds the first directory. By induction on how far it goes down: of two
entries the smaller name is searched first, to the end of what is below it. -/
theorem Proper.findsFirst (hn : n.Proper) (depth : Nat) :
    n.FindsFirst depth (n.descriptor? depth) := by
  induction depth generalizing n with
  | zero =>
    rw [descriptor?]
    split
    · next hsome => exact findsFirst_here hsome
    · next hnone =>
      intro names hholds
      cases names with
      | nil => exact hnone (holdsDescriptor_nil.1 hholds)
      | cons name names => exact not_holdsDescriptor_zero_cons hholds
  | succ depth ih =>
    have hentry : ∀ {name c}, (name, c) ∈ visibleEntries n.entries →
        c.FindsFirst depth (c.descriptor? depth) := fun hmem =>
      ih (hn.entry (mem_visibleEntries.1 hmem).1)
    rw [descriptor?_succ]
    split
    · next hsome => exact findsFirst_here hsome
    next hnone =>
    -- a directory that holds a descriptor is below an entry that is searched
    have hway : ∀ {names}, n.HoldsDescriptor (depth + 1) names → ∃ name rest c,
        names = name :: rest ∧ (name, c) ∈ visibleEntries n.entries ∧
          c.HoldsDescriptor depth rest := by
      intro names hholds
      cases names with
      | nil => exact absurd (holdsDescriptor_nil.1 hholds) hnone
      | cons name rest =>
        obtain ⟨hname, c, hc, hrest⟩ := holdsDescriptor_succ_cons.1 hholds
        exact ⟨name, rest, c, rfl, mem_visibleEntries.2 ⟨(mem_of_child? hc).2, hname⟩, hrest⟩
    cases hfind : (visibleEntries n.entries).findSome? (descriptorBelow? depth) with
    | none =>
      intro names hholds
      obtain ⟨name, rest, c, rfl, hmem, hrest⟩ := hway hholds
      exact not_holdsDescriptor_of_below (hentry hmem) (List.findSome?_eq_none_iff.1 hfind _ hmem)
        hrest
    | some found =>
      obtain ⟨front, ⟨name, c⟩, back, hes, hbelow, hfront⟩ := List.findSome?_eq_some_iff.1 hfind
      have hmem : (name, c) ∈ visibleEntries n.entries := by simp [hes]
      obtain ⟨hin, hvisible⟩ := mem_visibleEntries.1 hmem
      obtain ⟨names, ⟨hholds, hleast⟩, rfl⟩ := isLeast_of_below (hentry hmem) hbelow
      refine ⟨name :: names, ⟨holdsDescriptor_succ_cons.2 ⟨hvisible, c,
        hn.child?_eq_some_iff.2 hin, hholds⟩, fun other hother => ?_⟩, rfl⟩
      obtain ⟨name', rest, c', rfl, hmem', hrest⟩ := hway hother
      have hsorted := visibleEntries_pairwise_lt hn.distinct
      rw [hes, List.pairwise_append, List.pairwise_cons] at hsorted
      rw [hes, List.mem_append, List.mem_cons] at hmem'
      rcases hmem' with hmem' | heq | hmem'
      · have hmem : (name', c') ∈ visibleEntries n.entries := by simp [hes, hmem']
        exact absurd hrest (not_holdsDescriptor_of_below (hentry hmem) (hfront _ hmem'))
      · cases heq
        exact List.cons_le_cons _ (hleast hrest)
      · exact le_of_lt (List.cons_lt_cons_iff.2 (.inl (hsorted.2.1.1 _ hmem')))

/-- A descriptor that is found stands in a directory. -/
theorem exists_dir_of_descriptor? (hn : n.Proper) (h : n.descriptor? depth = some names) :
    ∃ above es, names = above ++ [descriptorName] ∧ n.at? above = some (.dir es) := by
  have hfirst := hn.findsFirst depth
  rw [h] at hfirst
  obtain ⟨above, hleast, rfl⟩ := hfirst
  obtain ⟨es, hat, -⟩ := hleast.1.holds
  exact ⟨above, es, rfl, hat⟩

end Node

/-! ## Searches from a path -/

namespace FileSystem

variable {fs : FileSystem} {root p : Path} {depth : Nat} {names : Location}
  {es : List (String × Node)}

end FileSystem

end ApexSyntax
