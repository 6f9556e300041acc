-- The leaves of what a parser builds are the tokens that it reads: each once,
-- in order, matched or skipped. The end of the text is left aside, since it may
-- be matched more than once and lies between no two positions.
import ApexSyntax.Proofs.Parser.Runs

namespace ApexSyntax

/-! ## Leaves of trees and of open nodes -/

/-- The tokens of some leaves, without the end of the text. -/
def tokensOf (leaves : List Leaf) : List Token :=
  (leaves.map Leaf.token).filter fun t => !t.isEof

@[simp] theorem tokensOf_append (ks ls : List Leaf) :
    tokensOf (ks ++ ls) = tokensOf ks ++ tokensOf ls := by
  simp [tokensOf]

/-- The leaves of some trees, one tree after the other. -/
def leavesOf (ts : List Tree) : List Leaf := ts.flatMap Tree.leaves

@[simp] theorem leavesOf_nil : leavesOf [] = [] := rfl

@[simp] theorem leavesOf_append (ts us : List Tree) :
    leavesOf (ts ++ us) = leavesOf ts ++ leavesOf us := by
  simp [leavesOf]

@[simp] theorem leavesOf_singleton (t : Tree) : leavesOf [t] = t.leaves := by simp [leavesOf]

namespace Builder

/-- The leaves of open nodes, the outermost first. -/
def frameLeaves : List Frame → List Leaf
  | [] => []
  | f :: rest => frameLeaves rest ++ leavesOf f.children.toList

/-- All leaves from left to right, those outside of the open nodes first. -/
def leaves (b : Builder) : List Leaf := leavesOf b.ground.toList ++ frameLeaves b.frames

/-- The leaves of a tree that stands alone. -/
@[simp] theorem leaves_single (t : Tree) : (⟨#[t], []⟩ : Builder).leaves = t.leaves := by
  simp [leaves, frameLeaves]

@[simp] theorem leaves_add (b : Builder) (t : Tree) : (b.add t).leaves = b.leaves ++ t.leaves := by
  rcases b with ⟨ground, _ | ⟨⟨r, children⟩, rest⟩⟩
  · simp [add, leaves, frameLeaves]
  · simp [add, leaves, frameLeaves]

@[simp] theorem leaves_start (b : Builder) (r : Rule) : (b.start r).leaves = b.leaves := by
  simp [start, leaves, frameLeaves]

/-- Trees that are split at a mark are the same trees in the same order. -/
theorem leavesOf_split (ts : Array Tree) (mark : Nat) :
    leavesOf (ts.shrink mark).toList ++ leavesOf (ts.extract mark ts.size).toList =
      leavesOf ts.toList := by
  have h : (ts.extract mark ts.size).toList = ts.toList.drop mark := by
    rw [Array.toList_extract, List.extract_eq_take_drop]
    exact List.take_of_length_le (by simp)
  rw [← leavesOf_append, h, Array.toList_shrink, List.take_append_drop]

@[simp] theorem leaves_wrap (b : Builder) (mark : Nat) (r : Rule) :
    (b.wrap mark r).leaves = b.leaves := by
  rcases b with ⟨ground, _ | ⟨⟨s, children⟩, rest⟩⟩
  · simp only [wrap, leaves, frameLeaves, List.nil_append, leavesOf_split, List.append_nil]
  · simp only [wrap, leaves, frameLeaves, List.append_assoc, leavesOf_split]

@[simp] theorem leaves_finish (b : Builder) : b.finish.leaves = b.leaves := by
  rcases b with ⟨ground, _ | ⟨f, rest⟩⟩
  · rfl
  · rw [finish, leaves_add]
    simp [leaves, frameLeaves, leavesOf]

/-- The leaves of the first node that was built are among all leaves. -/
theorem mem_leaves_of_root {b : Builder} {l : Leaf} (h : l ∈ b.root.leaves) : l ∈ b.leaves := by
  have hall : ∀ (frames : List Frame) (inner : List Tree),
      leavesOf (finishAll b.ground inner frames) =
        leavesOf b.ground.toList ++ frameLeaves frames ++ leavesOf inner := by
    intro frames
    induction frames with
    | nil => intro inner; simp [finishAll, frameLeaves]
    | cons f frames ih =>
      intro inner
      rw [finishAll, ih]
      simp [frameLeaves, leavesOf]
  unfold root at h
  cases hf : (finishAll b.ground [] b.frames).find? Tree.isNode with
  | none => simp [hf] at h
  | some t =>
    rw [hf] at h
    have hmem : l ∈ leavesOf (finishAll b.ground [] b.frames) :=
      List.mem_flatMap.2 ⟨t, List.mem_of_find?_eq_some hf, h⟩
    rw [hall] at hmem
    simpa [leaves] using hmem

end Builder

/-! ## Tokens between two positions -/

namespace TokenStream

/-- The visible tokens from one position up to, and without, another. -/
def between (s : TokenStream) (i j : Nat) : List Token := (s.visible.toList.take j).drop i

@[simp] theorem between_self (s : TokenStream) (i : Nat) : s.between i i = [] := by
  simp [between]

theorem between_append (s : TokenStream) {i j k : Nat} (hij : i ≤ j) (hjk : j ≤ k) :
    s.between i j ++ s.between j k = s.between i k := by
  obtain ⟨m, rfl⟩ := Nat.exists_eq_add_of_le hij
  obtain ⟨n, rfl⟩ := Nat.exists_eq_add_of_le hjk
  have hi : i + m + n - i = m + n := by omega
  rw [between, between, between, List.drop_take, List.drop_take, List.drop_take, hi,
    Nat.add_sub_cancel_left, Nat.add_sub_cancel_left, ← List.drop_drop, List.take_add]

theorem between_succ (s : TokenStream) {i : Nat} (h : i < s.visible.size) :
    s.between i (i + 1) = [s.nth i] := by
  have hl : i < s.visible.toList.length := by simpa using h
  rw [between, List.drop_take, Nat.add_sub_cancel_left, List.drop_eq_getElem_cons hl]
  simp [nth, Array.getD, h]

/-- The tokens up to the end or beyond are all that are left. -/
theorem between_of_le (s : TokenStream) (i : Nat) {j : Nat} (h : s.visible.size ≤ j) :
    s.between i j = s.visible.toList.drop i := by
  rw [between, List.take_of_length_le (by simpa using h)]

end TokenStream

/-! ## What is read becomes leaves -/

namespace Parser

open Builder

/-- The tokens between two positions are added as leaves, and nothing else is. -/
def Reads (p q : Parser) : Prop :=
  Moves p q ∧
    tokensOf q.tree.leaves = tokensOf p.tree.leaves ++ p.stream.between p.position q.position

theorem Reads.refl (p : Parser) : Reads p p := ⟨.refl p, by simp⟩

theorem Reads.trans {p q r : Parser} (h : Reads p q) (h' : Reads q r) : Reads p r := by
  obtain ⟨m, h⟩ := h
  obtain ⟨m', h'⟩ := h'
  refine ⟨m.trans m', ?_⟩
  rw [h', h, m.stream, List.append_assoc,
    p.stream.between_append m.position_le m'.position_le]

/-- A parser whose leaves and position are those of another has read nothing. -/
theorem reads_of_eq {p q : Parser} (m : Moves p q) (hl : q.tree.leaves = p.tree.leaves)
    (hp : q.position = p.position) : Reads p q :=
  ⟨m, by rw [hl, hp]; simp⟩

/-- The current token is read when it becomes the last leaf. -/
theorem reads_of_leaf {p q : Parser} {skipped : Bool} (m : Moves p q)
    (hl : q.tree.leaves = p.tree.leaves ++ [⟨p.current, skipped⟩]) (hp : q.position = p.behind) :
    Reads p q := by
  refine ⟨m, ?_⟩
  rw [hl, tokensOf_append]
  congr 1
  by_cases h : p.position < p.stream.visible.size
  · have he : p.current.isEof = false := by
      rw [Bool.eq_false_iff, Ne, isEof_current_iff]; omega
    rw [hp, behind_of_lt h, p.stream.between_succ h, ← current_eq]
    simp [tokensOf, he]
  · have he : p.current.isEof = true := (isEof_current_iff p).2 (by omega)
    rw [hp, behind_of_eof he]
    simp [tokensOf, he]

theorem reads_take (p : Parser) : Reads p p.take :=
  reads_of_leaf (moves_take p) (leaves_add _ _) rfl

theorem reads_skip (p : Parser) : Reads p p.skip :=
  reads_of_leaf (moves_skip p) (leaves_add _ _) rfl

theorem reads_report (p : Parser) (message : String) : Reads p (p.report message).1 :=
  reads_of_eq (moves_report p message) (by rw [tree_report]) (position_report p message)

theorem reads_build (p : Parser) {f : Builder → Builder} (h : (f p.tree).leaves = p.tree.leaves) :
    Reads p (p.build f) :=
  reads_of_eq (moves_build p f) h rfl

theorem reads_kept : Kept Reads where
  refl := .refl
  trans := .trans
  take := reads_take
  report := reads_report
  start p _ := reads_build p (by simp)
  wrap p _ _ := reads_build p (by simp)
  finish p := reads_build p (by simp)

/-- A run adds the tokens that it passes as leaves, each once and in order. -/
theorem Leads.reads {allowed : Parser → Step → Prop} {ss : List Step} {p q : Parser}
    (h : Leads allowed ss p q) : Reads p q :=
  h.keeps Reads.refl (fun _ _ _ => Reads.trans) fun _ _ _ _ _ h =>
    reads_kept.perform h fun _ => reads_skip _

end Parser

end ApexSyntax
