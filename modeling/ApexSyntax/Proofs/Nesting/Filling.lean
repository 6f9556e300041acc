-- How steps fill the nodes that they open. A list of steps adds trees to a base, or puts what
-- stands there into others, and what it adds leaves no more parentheses open than its word.
import ApexSyntax.Proofs.Nesting.Rounds

namespace ApexSyntax

open ApexSyntax.Tree

/-! ## Nodes that are filled -/

/-- A tree that stands a number of open nodes above a base, none of them a search, with the
kinds of what was added. -/
inductive Filled (b : Builder) : Nat → Builder → List Kind → Prop
  | base {ts : List Tree} : NoneOpenIn ts → Filled b 0 (b.addAll ts) (exposedAll ts)
  | opened {d : Nat} {c : Builder} {ks : List Kind} {r : Rule} {ts : List Tree} :
      r ≠ .soslQuery → NoneOpenIn ts → Filled b d c ks →
      Filled b (d + 1) ((c.start r).addAll ts) (ks ++ exposedAll ts)

namespace Filled

variable {b c : Builder} {d : Nat} {ks : List Kind} {r : Rule} {ts : List Tree}

theorem addAll (h : Filled b d c ks) (ht : NoneOpenIn ts) :
    Filled b d (c.addAll ts) (ks ++ exposedAll ts) := by
  cases h with
  | base hu =>
    rw [← Builder.addAll_append, ← exposedAll_append]
    exact .base (hu.append ht)
  | opened hr hu h =>
    rw [← Builder.addAll_append, List.append_assoc, ← exposedAll_append]
    exact .opened hr (hu.append ht) h

theorem start (h : Filled b d c ks) (hr : r ≠ .soslQuery) : Filled b (d + 1) (c.start r) ks := by
  have hopened := Filled.opened hr noneOpenIn_nil h
  rwa [exposedAll_nil, List.append_nil] at hopened

theorem wrap (h : Filled b 0 c ks) (hr : r ≠ .soslQuery) : Filled b 1 (c.wrap b.mark r) ks := by
  cases h with
  | base hu =>
    rw [Builder.wrap_addAll]
    exact .opened hr hu (.base noneOpenIn_nil)

theorem finish (h : Filled b (d + 1) c ks) : Filled b d c.finish ks := by
  cases h with
  | opened hr hu h =>
    rw [Builder.finish_addAll_start, ← exposed_node hr, ← List.append_nil (Tree.exposed _)]
    exact h.addAll (noneOpenIn_node (noneOpen_of_ne hr _) hu)

end Filled

/-! ## Steps that fill nodes -/

namespace Step

def isSearch : Step → Bool
  | soql .search => true
  | _ => false

/-- The step opens the node of a search, and is no search. -/
def opensSearch : Step → Bool
  | start r | wrap _ r | decl (.blockMember r) => r == .soslQuery
  | expectThen _ next => next.isSearch || next.opensSearch
  | _ => false

/-- The step reads a token of the text when nothing is reported. -/
def expects : Step → Bool
  | expect e => e.isReal
  | _ => false

end Step

/-- With some nodes open above a base, the steps close these and all that they open. What
stands behind the mark of the base may be put into other nodes, and behind a search a token
is expected. -/
def fills (mark : Nat) : Nat → List Step → Bool
  | depth, [] => depth == 0
  | depth, s :: ss =>
    !s.opensSearch && (!s.isSearch || ss.any Step.expects) &&
      match s.shape, depth with
      | .opens _, depth => fills mark (depth + 1) ss
      | .wraps m _, 0 => m == mark && fills mark 1 ss
      | .closes, depth + 1 => fills mark depth ss
      | .regrows m, 0 | .gathers m, 0 => m == mark && fills mark 0 ss
      | shape, depth => shape.adds && fills mark depth ss

theorem TypePart.fills_expand (p : TypePart) (v : Lookahead) (mark : Nat) :
    fills mark 0 (p.expand v) = true := by
  cases p <;> simp only [expand] <;> repeat' split
  all_goals rfl

/-- The mark of what an expression may put into other nodes. -/
def ExprPart.base (mark : Nat) : ExprPart → Nat
  | assignment m | alternatives m | operators _ m | suffixes m => m
  | initializerValues m | initializerRest m => m
  | _ => mark

theorem ne_search_of_operatorAhead {v : Lookahead} {level n : Nat} {r : Rule}
    (h : v.operatorAhead level = some (r, n)) : r ≠ .soslQuery := by
  rintro rfl
  cases (operatorAhead_spells h).1.level_eq

theorem ExprPart.fills_expand (p : ExprPart) (v : Lookahead) (mark : Nat) :
    fills (p.base mark) 0 (p.expand v mark) = true := by
  cases p with
  | operators level m =>
    simp only [expand]
    split
    · rename_i r n hop
      have hr := ne_search_of_operatorAhead hop
      unfold rightOperand
      split <;> simp [fills, Step.shape, Step.opensSearch, Step.isSearch, Shape.adds,
        base, hr]
    · rfl
  | primary =>
    exact primarySteps_cases (P := fun ss =>
      fills mark 0 (Step.start .primaryExpression :: ss ++ [Step.finish]) = true) v
      rfl rfl rfl rfl rfl rfl rfl rfl rfl
  | _ =>
    simp only [expand, unarySteps, callSteps, initializerSteps]
    repeat' split
    all_goals first | rfl | simp [fills, Step.shape, Step.opensSearch, Step.isSearch,
      Shape.adds, base]

theorem QueryPart.fills_expand (p : QueryPart) (v : Lookahead) (mark : Nat) (hp : p ≠ .search) :
    fills mark 0 (p.expand v) = true := by
  cases p with
  | search => exact absurd rfl hp
  | _ =>
    simp only [expand, clause, selectEntrySteps, valueSteps]
    repeat' split
    all_goals rfl

theorem StmtPart.fills_expand (p : StmtPart) (v : Lookahead) (mark : Nat) :
    fills mark 0 (p.expand v) = true := by
  cases p <;> simp only [expand, statementSteps, dmlSteps, untilBrace, loopControlSteps,
    whenValueSteps] <;> repeat' split
  all_goals rfl

theorem DeclPart.fills_expand (p : DeclPart) (v : Lookahead) (mark : Nat)
    (hp : (Step.decl p).opensSearch = false) : fills mark 0 (p.expand v) = true := by
  cases p with
  | blockMember r =>
    have hr : (r == .soslQuery) = false := hp
    simp only [expand]
    split <;> simp [fills, Step.shape, Step.opensSearch, Step.isSearch, Shape.adds, hr]
  | _ =>
    simp only [expand, untilBrace, memberSteps, classMemberSteps, annotationValueSteps]
    repeat' split
    all_goals rfl

namespace Parser

/-! ## The law of searches -/

/-- A calm step over words. -/
structure SpelledCalm (p : Parser) (s : Step) : Prop where
  calm : Calm true p s
  spelled : p.stream.Spelled

/-- How many parentheses the trees that a step adds leave open. -/
def Weighs (s : Step) (p q : Parser) (ts : List Tree) : Prop :=
  match s with
  | .take n => exposedAll ts = p.lookahead.kinds n
  | .soql .search => ∃ us, ts = [.node .soslQuery us] ∧ NoneOpenIn us ∧
      (¬ AtEnd q → NoneOpen .soslQuery us)
  | .soql .searchTerm => ∃ ks, (∀ us, exposedFrom .term (ts ++ us) = ks ++ exposedAll us) ∧
      ∀ n, openRounds n ks ≤ n
  | .soql .searchBraces =>
    (∀ us, exposedFrom .braces (ts ++ us) = .mark .rBrace :: exposedAll us) ∧
    (p.lookahead.atMark .lBrace = true → ∀ us,
      exposedFrom .term (ts ++ us) = .mark .lBrace :: .mark .rBrace :: exposedAll us)
  | .soql (.searchRest depth) => ¬ AtEnd q → openRounds depth (exposedAll ts) = 0
  | s => s.nests = true → ∀ n, openRounds n (exposedAll ts) ≤ openRounds n s.brackets

/-- The step adds finished trees. The searches in them leave nothing open, but for one that
runs up to the end of the text. -/
def AddsClosed (s : Step) (p q : Parser) : Prop :=
  ∃ ts, q.tree = p.tree.addAll ts ∧ ((s.isSearch = true → ¬ AtEnd q) → NoneOpenIn ts) ∧
    Weighs s p q ts

/-- What stands behind a base is put into other trees, and what is added to it leaves no more
open than a word. -/
def GoesBehind (b : Builder) (us : List Tree) (ks : List Kind) (q : Parser) : Prop :=
  ∃ vs ls, q.tree = b.addAll vs ∧ NoneOpenIn vs ∧ exposedAll vs = exposedAll us ++ ls ∧
    ∀ n, openRounds n ls ≤ openRounds n ks

/-- What a step does to the tree, by its shape. -/
def Balances (s : Step) (p q : Parser) : Prop :=
  match s.shape with
  | .opens r => q.tree = p.tree.start r
  | .wraps mark r => q.tree = p.tree.wrap mark r
  | .closes => q.tree = p.tree.finish
  | .node | .trees => s.opensSearch = false → AddsClosed s p q
  | .regrows mark | .gathers mark => ∀ (b : Builder) (us : List Tree), b.mark = mark →
      p.tree = b.addAll us → NoneOpenIn us → GoesBehind b us s.brackets q
  | .unknown => True

abbrev BalancesAll : List Step → Parser → Parser → Prop :=
  Chain fun s p q => Leads SpelledCalm [s] p q ∧ Balances s p q

section Lists

variable {p p' q : Parser} {s : Step} {ss : List Step} {b : Builder} {d : Nat} {ks : List Kind}
  {ts : List Tree}

theorem adds_of_balances (hs : s.shape.adds = true) (ho : s.opensSearch = false)
    (h : Balances s p q) : AddsClosed s p q := by
  unfold Balances at h
  cases hsh : s.shape with
  | node | trees => rw [hsh] at h; exact h ho
  | _ => rw [hsh] at hs; cases hs

/-- A token that is expected in a calm run is read. -/
theorem expected_of_calm {e : Expected} (h : Leads SpelledCalm [.expect e] p q) :
    e.accepts p.current = true ∧ q = p.take := by
  cases h with
  | perform ha hp hm hrest =>
    obtain ⟨he, rfl, rfl⟩ := expect_calm ha.calm rfl hp
    cases hm
    cases hrest
    exact ⟨he, rfl⟩

/-- In front of a token that is expected, the text has not ended. -/
theorem not_atEnd_of_expects (h : BalancesAll ss p q)
    (hs : ss.any Step.expects = true) : ¬ AtEnd p := by
  induction ss generalizing p with
  | nil => cases hs
  | cons s ss ih =>
    obtain ⟨p', ⟨hrun, -⟩, h⟩ := h
    rw [List.any_cons, Bool.or_eq_true] at hs
    rcases hs with hs | hs
    · cases s with
      | expect e =>
        have hkind := Expected.kind_ne_eof (v := p.lookahead) hs (expected_of_calm hrun).1
        exact Nat.not_le.2 ((kind_ne_eof_iff p).1 hkind)
      | _ => cases hs
    · exact fun hend => ih h hs (hend.moves hrun.moves)

/-- What a step adds that nests by itself. -/
theorem Weighs.le (h : Weighs s p q ts) (hn : s.nests = true)
    (hs : s.isSearch = true → ¬ AtEnd q) (n : Nat) :
    openRounds n (exposedAll ts) ≤ openRounds n s.brackets := by
  cases s with
  | take n => cases hn
  | soql part =>
    cases part with
    | searchTerm | searchBraces | searchRest => cases hn
    | search =>
      obtain ⟨us, rfl, -, hus⟩ := h
      have hle := openRounds_le (hus (hs (by rfl)) rfl) n
      rw [exposedAll_cons, exposedAll_nil, List.append_nil]
      exact hle
    | _ => exact h hn n
  | _ => exact h hn n

/-- What one step of a list adds, and the kinds of that. -/
structure StepFills (b : Builder) (ks : List Kind) (s : Step) (ss : List Step) (p p' : Parser)
    (d : Nat) (ls : List Kind) : Prop where
  filled : Filled b d p'.tree (ks ++ ls)
  rest : fills b.mark d ss = true
  light : s.nests = true → ∀ n, openRounds n ls ≤ openRounds n s.brackets
  taken (n : Nat) : s = .take n → ls = p.lookahead.kinds n

/-- Trees that are added. -/
theorem StepFills.ofAdds (hf : fills b.mark d ss = true) (hb : Filled b d p.tree ks)
    (hn : s.isSearch = true → ¬ AtEnd p') (h : AddsClosed s p p') :
    ∃ ls, StepFills b ks s ss p p' d ls := by
  obtain ⟨ts, hq, hts, hw⟩ := h
  refine ⟨exposedAll ts, hq ▸ hb.addAll (hts hn), hf, fun hnests => hw.le hnests hn, ?_⟩
  rintro n rfl
  exact hw

/-- What stands at the base, when no node is open above it. -/
theorem StepFills.ofBehind (hf : fills b.mark 0 ss = true) (hb : Filled b 0 p.tree ks)
    (h : ∀ us, p.tree = b.addAll us → NoneOpenIn us → GoesBehind b us s.brackets p')
    (ht : ∀ n, s ≠ .take n) : ∃ ls, StepFills b ks s ss p p' 0 ls := by
  generalize hp : p.tree = c at hb
  cases hb with
  | base hu =>
    obtain ⟨vs, ls, hq, hvs, hls, hle⟩ := h _ hp hu
    exact ⟨ls, hls ▸ hq ▸ .base hvs, hf, fun _ => hle, fun n hs => absurd hs (ht n)⟩

theorem exists_stepFills (hf : fills b.mark d (s :: ss) = true) (h : Balances s p p')
    (hend : ss.any Step.expects = true → ¬ AtEnd p') (hb : Filled b d p.tree ks) :
    ∃ d' ls, StepFills b ks s ss p p' d' ls := by
  simp only [fills, Bool.and_eq_true, Bool.not_eq_true', Bool.or_eq_true] at hf
  obtain ⟨⟨hopens, hsearch⟩, hf⟩ := hf
  unfold Balances at h
  split at hf
  · rename_i r hs
    rw [hs] at h
    obtain rfl := eq_start_of_shape hs
    have hp' : p'.tree = p.tree.start r := h
    refine ⟨_, [], ?_, hf, fun _ _ => Nat.le_refl _, nofun⟩
    rw [List.append_nil, hp']
    exact hb.start (by simpa [Step.opensSearch] using hopens)
  · rename_i m r hs
    rw [hs] at h
    obtain rfl := eq_wrap_of_shape hs
    have hp' : p'.tree = p.tree.wrap m r := h
    obtain ⟨hm, hrest⟩ := Bool.and_eq_true_iff.1 hf
    obtain rfl := beq_iff_eq.1 hm
    refine ⟨_, [], ?_, hrest, fun _ _ => Nat.le_refl _, nofun⟩
    rw [List.append_nil, hp']
    exact hb.wrap (by simpa [Step.opensSearch] using hopens)
  · rename_i hs
    rw [hs] at h
    obtain rfl := eq_finish_of_shape hs
    have hp' : p'.tree = p.tree.finish := h
    refine ⟨_, [], ?_, hf, fun _ _ => Nat.le_refl _, nofun⟩
    rw [List.append_nil, hp']
    exact hb.finish
  · rename_i m hs
    rw [hs] at h
    obtain ⟨hm, hf⟩ := Bool.and_eq_true_iff.1 hf
    exact ⟨0, StepFills.ofBehind hf hb (fun us => h b us (beq_iff_eq.1 hm).symm) (by
      rintro n rfl
      cases hs)⟩
  · rename_i m hs
    rw [hs] at h
    obtain ⟨hm, hf⟩ := Bool.and_eq_true_iff.1 hf
    exact ⟨0, StepFills.ofBehind hf hb (fun us => h b us (beq_iff_eq.1 hm).symm) (by
      rintro n rfl
      cases hs)⟩
  · obtain ⟨hadds, hf⟩ := Bool.and_eq_true_iff.1 hf
    refine ⟨_, StepFills.ofAdds hf hb (fun hs => hend (hsearch.resolve_left ?_)) ?_⟩
    · rw [hs]
      exact Bool.noConfusion
    · exact adds_of_balances hadds hopens h

theorem filled_of_fills (hf : fills b.mark d ss = true) (h : BalancesAll ss p q)
    (hb : Filled b d p.tree ks) : ∃ ls, Filled b 0 q.tree (ks ++ ls) ∧
      (ss.all Step.nests = true → ∀ n, openRounds n ls ≤ openRounds n (ss.flatMap Step.brackets)) ∧
      (nestsBehindTake ss = true →
        ∀ n, openRounds n ls ≤ openRounds n (p.lookahead.bracketsOf ss)) := by
  induction ss generalizing d p ks with
  | nil =>
    cases h
    rw [fills, beq_iff_eq] at hf
    subst hf
    exact ⟨[], by rwa [List.append_nil], fun _ _ => Nat.le_refl _, fun _ _ => Nat.le_refl _⟩
  | cons s ss ih =>
    obtain ⟨p', ⟨hrun, hs⟩, h⟩ := h
    obtain ⟨d', ks', hfill⟩ := exists_stepFills hf hs (not_atEnd_of_expects h) hb
    obtain ⟨ls, hq, hall, hbehind⟩ := ih hfill.rest h hfill.filled
    refine ⟨ks' ++ ls, by rwa [← List.append_assoc], ?_, ?_⟩
    · intro hn
      rw [List.all_cons, Bool.and_eq_true] at hn
      exact openRounds_append_le (hfill.light hn.1) (hall hn.2)
    · intro hn
      cases s with
      | start r =>
        obtain rfl : p' = p.build (·.start r) := hrun.single rfl
        exact openRounds_append_le (hfill.light rfl) (hbehind hn)
      | wrap mark r =>
        obtain rfl : p' = p.build (·.wrap mark r) := hrun.single rfl
        exact openRounds_append_le (hfill.light rfl) (hbehind hn)
      | take n =>
        rw [hfill.taken n rfl]
        exact openRounds_append_le (fun _ => Nat.le_refl _) (hall hn)
      | _ =>
        have hnests : (_ :: ss).all Step.nests = true := hn
        rw [List.all_cons, Bool.and_eq_true] at hnests
        exact openRounds_append_le (hfill.light hnests.1) (hall hnests.2)

end Lists

/-! ## Parts -/

section Parts

variable {p p' q : Parser} {s : Step} {more : List Step} {b : Builder} {us : List Tree}
  {ks : List Kind}

/-- A part puts what stands at the base into other trees when its steps do. -/
theorem goesBehind_part (hm : BalancesAll more p q) (hf : fills b.mark 0 more = true)
    (ht : Turns p.lookahead s more) (hc : ClosesOne s.brackets) (hp : p.tree = b.addAll us)
    (hu : NoneOpenIn us) : GoesBehind b us s.brackets q := by
  have hb : Filled b 0 p.tree (exposedAll us) := hp ▸ .base hu
  obtain ⟨ls, hq, -, hle⟩ := filled_of_fills hf hm hb
  generalize hks : exposedAll us ++ ls = ks at hq
  generalize hc' : q.tree = c at hq
  cases hq with
  | base hvs =>
    refine ⟨_, ls, hc', hvs, hks.symm, fun n => ?_⟩
    rw [← ht.openRounds_eq hc n]
    exact hle ht.nests n

/-- Behind nothing, trees are added. -/
theorem GoesBehind.adds (h : GoesBehind p.tree [] ks q) : ∃ ts, q.tree = p.tree.addAll ts ∧
    NoneOpenIn ts ∧ ∀ n, openRounds n (exposedAll ts) ≤ openRounds n ks := by
  obtain ⟨ts, ls, hq, hts, hls, hle⟩ := h
  exact ⟨ts, hq, hts, by rwa [hls]⟩

theorem adds_part (hm : BalancesAll more p q) (hf : fills p.tree.mark 0 more = true)
    (ht : Turns p.lookahead s more) (hc : ClosesOne s.brackets) : ∃ ts,
      q.tree = p.tree.addAll ts ∧ NoneOpenIn ts ∧
      ∀ n, openRounds n (exposedAll ts) ≤ openRounds n s.brackets := by
  have hbehind : GoesBehind p.tree [] s.brackets q :=
    goesBehind_part hm hf ht hc rfl noneOpenIn_nil
  exact hbehind.adds

theorem balances_expr (hs : p.stream.Spelled) (part : ExprPart)
    (hm : BalancesAll (part.expand p.lookahead p.tree.mark) p q) : Balances (.expr part) p q := by
  have hbehind : ∀ b us, b.mark = part.base p.tree.mark → p.tree = b.addAll us →
      NoneOpenIn us → GoesBehind b us (Step.expr part).brackets q := fun b us hb =>
    goesBehind_part hm (hb ▸ part.fills_expand _ _) (part.turns hs _) part.closesOne
  have hadds : part.base p.tree.mark = p.tree.mark → ∃ ts, q.tree = p.tree.addAll ts ∧
      NoneOpenIn ts ∧ ∀ n, openRounds n (exposedAll ts) ≤ openRounds n (Step.expr part).brackets :=
    fun hb => (hbehind p.tree [] hb.symm rfl noneOpenIn_nil).adds
  cases part with
  | assignment | alternatives | operators | suffixes | initializerValues | initializerRest =>
    exact hbehind
  | _ =>
    obtain ⟨ts, hq, hts, hle⟩ := hadds rfl
    exact fun _ => ⟨ts, hq, fun _ => hts, fun _ => hle⟩

theorem balances_stmt (hs : p.stream.Spelled) (part : StmtPart)
    (hm : BalancesAll (part.expand p.lookahead) p q) : Balances (.stmt part) p q := by
  obtain ⟨ts, hq, hts, hle⟩ := adds_part hm (part.fills_expand _ _) (part.turns hs) part.closesOne
  cases part <;> exact fun _ => ⟨ts, hq, fun _ => hts, fun _ => hle⟩

end Parts

end Parser

end ApexSyntax
