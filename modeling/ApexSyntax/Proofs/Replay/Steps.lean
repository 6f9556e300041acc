-- A calm run is replayed on another stream, some tokens further on, where every step
-- sees the same tokens ahead. The trees that it adds are the same up to their tokens, and
-- it reports nothing there either.
import ApexSyntax.Proofs.Layout.Alike
import ApexSyntax.Proofs.Parser.Grammatical
import ApexSyntax.Proofs.Parser.History
import ApexSyntax.Proofs.Replay.Trees

namespace ApexSyntax

/-! ## Open nodes -/

/-- The number of nodes that are open behind a step. A node around what stands before
needs one that is open, since it counts its children, and so do the parts that do not
open one first. -/
def Step.level? : Step → Nat → Option Nat
  | start _, k => some (k + 1)
  | wrap _ _, k + 1 => some (k + 2)
  | finish, k + 1 => some k
  | wrap _ _, 0 | finish, 0 => none
  | expectThen _ next, k => next.level? k
  | typ _, k + 1 | expr _, k + 1 | soql _, k + 1 | stmt _, k + 1 | decl _, k + 1 => some (k + 1)
  | stmt .block, 0 | decl (.blockMember _), 0 => some 0
  | typ _, 0 | expr _, 0 | soql _, 0 | stmt _, 0 | decl _, 0 => none
  | _, k => some k

def levelBehind : Nat → List Step → Option Nat
  | k, [] => some k
  | k, s :: ss => (s.level? k).bind fun k => levelBehind k ss

section Levels

variable {v : Lookahead} {k k' : Nat}

theorem TypePart.levelBehind (p : TypePart) :
    levelBehind (k + 1) (p.expand v) = some (k + 1) := by
  cases p <;> simp only [expand] <;> repeat' split
  all_goals rfl

theorem ExprPart.levelBehind (p : ExprPart) (mark : Nat) :
    levelBehind (k + 1) (p.expand v mark) = some (k + 1) := by
  cases p with
  | primary =>
    exact primarySteps_cases (P := fun ss => ApexSyntax.levelBehind (k + 1)
      (Step.start .primaryExpression :: ss ++ [Step.finish]) = some (k + 1)) v
      rfl rfl rfl rfl rfl rfl rfl rfl rfl
  | _ =>
    simp only [expand, unarySteps, rightOperand]
    repeat' split
    all_goals rfl

theorem QueryPart.levelBehind (p : QueryPart) :
    levelBehind (k + 1) (p.expand v) = some (k + 1) := by
  cases p <;> simp only [expand, clause, selectEntrySteps, valueSteps] <;> repeat' split
  all_goals rfl

theorem StmtPart.levelBehind_succ (p : StmtPart) :
    levelBehind (k + 1) (p.expand v) = some (k + 1) := by
  cases p <;> simp only [expand, untilBrace, statementSteps, dmlSteps, loopControlSteps,
    whenValueSteps] <;> repeat' split
  all_goals rfl

theorem DeclPart.levelBehind_succ (p : DeclPart) :
    levelBehind (k + 1) (p.expand v) = some (k + 1) := by
  cases p <;> simp only [expand, untilBrace, memberSteps, classMemberSteps,
    annotationValueSteps] <;> repeat' split
  all_goals rfl

theorem StmtPart.levelBehind (p : StmtPart) (h : (Step.stmt p).level? k = some k') :
    levelBehind k (p.expand v) = some k' := by
  cases k with
  | zero =>
    cases p with
    | block => exact h
    | _ => cases h
  | succ k =>
    rw [p.levelBehind_succ]
    exact h

theorem DeclPart.levelBehind (p : DeclPart) (h : (Step.decl p).level? k = some k') :
    levelBehind k (p.expand v) = some k' := by
  cases k with
  | zero =>
    cases p with
    | blockMember r =>
      simp only [expand]
      split <;> exact h
    | _ => cases h
  | succ k =>
    rw [p.levelBehind_succ]
    exact h

end Levels

/-- What decides about a token can be told from its image. -/
structure KeepsWords (f : Token → Token) : Prop where
  kind {t u : Token} : f u = f t → u.kind = t.kind
  word {t u : Token} : f u = f t → u.word = t.word

theorem KeepsWords.isEof {f : Token → Token} {t u : Token} (hf : KeepsWords f) (h : f u = f t) :
    u.isEof = t.isEof := by
  rw [Token.isEof, Token.isEof, hf.kind h]

theorem KeepsWords.accepts {f : Token → Token} {t u : Token} (hf : KeepsWords f) (h : f u = f t)
    (e : Expected) : e.accepts u = e.accepts t := by
  cases e <;> simp only [Expected.accepts, Token.isIdentifier, Token.isWord, hf.kind h, hf.word h]

namespace Parser

/-! ## The same steps further on -/

/-- In a stream, `d` tokens further on than the parser, a step sees what it sees here. -/
def Sees (f : Token → Token) (s : TokenStream) (d : Nat) (p : Parser) : Step → Prop
  | .take n => ∀ i < n, f (s.nth (p.position + d + i)) = f (p.stream.nth (p.position + i))
  | .takeIf _ | .expect _ | .expectThen _ _ | .endOfText | .skipRest =>
    f (s.nth (p.position + d)) = f p.current
  | .typ part => part.expand ⟨s, p.position + d⟩ = part.expand p.lookahead
  | .expr part => ∀ mark, part.expand ⟨s, p.position + d⟩ mark = part.expand p.lookahead mark
  | .soql part => part.expand ⟨s, p.position + d⟩ = part.expand p.lookahead
  | .stmt part =>
    part.expand ⟨s, p.position + d⟩ = (part.expand p.lookahead).map (Step.shifted d)
  | .decl part =>
    part.expand ⟨s, p.position + d⟩ = (part.expand p.lookahead).map (Step.shifted d)
  | _ => True

/-- A parser over a stream stands `d` tokens further on, and has built beside the other. -/
structure Copies (f : Token → Token) (b c : Builder) (s : TokenStream) (d k : Nat)
    (p r : Parser) : Prop where
  stream : r.stream = s
  position : r.position = p.position + d
  tree : Builder.Beside f b c k p.tree r.tree

namespace Copies

variable {f : Token → Token} {b c : Builder} {s : TokenStream} {d k k' : Nat}
  {p p' q r : Parser} {st : Step} {ss more : List Step}

theorem lookahead_eq (h : Copies f b c s d k p r) : r.lookahead = ⟨s, p.position + d⟩ := by
  rw [lookahead, h.stream, h.position]

theorem build {g : Builder → Builder} (h : Copies f b c s d k p r)
    (hg : Builder.Beside f b c k' (g p.tree) (g r.tree)) :
    Copies f b c s d k' (p.build g) (r.build g) :=
  ⟨h.stream, h.position, hg⟩

theorem take (hf : KeepsWords f) (h : Copies f b c s d k p r)
    (ht : f (s.nth (p.position + d)) = f p.current) : Copies f b c s d k p.take r.take where
  stream := h.stream
  position := by
    have hcur : f r.current = f p.current := by rw [current_eq r, h.stream, h.position, ht]
    rw [position_take, position_take, behind, behind, hf.isEof hcur, h.position]
    split <;> omega
  tree := by
    rw [tree_take, tree_take, current_eq r, h.stream, h.position]
    exact h.tree.addAll (.token ht)

theorem takeMany (hf : KeepsWords f) (h : Copies f b c s d k p r) (n : Nat)
    (ht : ∀ i < n, f (s.nth (p.position + d + i)) = f (p.stream.nth (p.position + i))) :
    Copies f b c s d k (p.takeMany n) (r.takeMany n) := by
  induction n generalizing p r with
  | zero => exact h
  | succ n ih =>
    refine ih (h.take hf (ht 0 (Nat.succ_pos n))) fun i hi => ?_
    rw [position_take, behind]
    split
    · exact ht i (by omega)
    · have hnext := ht (i + 1) (by omega)
      rwa [show p.position + d + (i + 1) = p.position + 1 + d + i by omega,
        show p.position + (i + 1) = p.position + 1 + i by omega] at hnext

/-- In a calm run an expected token is there, in both streams. -/
theorem expect (hf : KeepsWords f) {e : Expected} {next : List Step}
    (h : Copies f b c s d k p r) (hc : Calm true p st) (hp : p.perform st = p.expect e next)
    (hst : p.perform st = (p', .ok more)) (ht : f (s.nth (p.position + d)) = f p.current)
    (next' : List Step) :
    r.expect e next' = (r.take, .ok next') ∧ more = next ∧ Copies f b c s d k p' r.take := by
  obtain ⟨ha, rfl, rfl⟩ := expect_calm hc hp hst
  have hcur : f r.current = f p.current := by rw [current_eq r, h.stream, h.position, ht]
  have ha' : e.accepts r.current = true := (hf.accepts hcur e).trans ha
  refine ⟨?_, rfl, h.take hf ht⟩
  simp only [Parser.expect, ha', if_true]

/-- A step that sees the same is performed the same way. -/
theorem perform (hf : KeepsWords f) (h : Copies f b c s d k p r) (hc : Calm true p st)
    (hs : Sees f s d p st) (hst : p.perform st = (p', .ok more)) (hk : st.level? k = some k') :
    ∃ k₀ r', r.perform (st.shifted d) = (r', .ok (more.map (Step.shifted d))) ∧
      Copies f b c s d k₀ p' r' ∧ levelBehind k₀ more = some k' ∧ Quietly r r' := by
  have hcur : f (s.nth (p.position + d)) = f p.current → f r.current = f p.current := by
    intro ht
    rw [current_eq r, h.stream, h.position, ht]
  have hpart : ∀ ts : List Step, r.perform (st.shifted d) = (r, .ok (ts.map (Step.shifted d))) →
      p.perform st = (p, .ok ts) → levelBehind k ts = some k' →
      ∃ k₀ r', r.perform (st.shifted d) = (r', .ok (more.map (Step.shifted d))) ∧
        Copies f b c s d k₀ p' r' ∧ levelBehind k₀ more = some k' ∧ Quietly r r' := by
    intro ts hr hp hts
    rw [hst] at hp
    cases hp
    exact ⟨_, r, hr, h, hts, .refl r⟩
  cases st with
  | start rule =>
    cases hst
    cases hk
    exact ⟨_, _, rfl, h.build (h.tree.start rule), rfl, .build _ _⟩
  | wrap mark rule =>
    cases k with
    | zero => cases hk
    | succ k =>
      cases hst
      cases hk
      exact ⟨_, _, rfl, h.build (h.tree.wrap mark rule), rfl, .build _ _⟩
  | finish =>
    cases k with
    | zero => cases hk
    | succ k =>
      cases hst
      cases hk
      exact ⟨_, _, rfl, h.build h.tree.finish, rfl, .build _ _⟩
  | take n =>
    cases hst
    cases hk
    exact ⟨_, _, rfl, h.takeMany hf n hs, rfl, .takeMany r n⟩
  | takeIf m =>
    cases hst
    cases hk
    have hm : r.lookahead.atMark m = p.lookahead.atMark m := by
      rw [Lookahead.atMark, Lookahead.atMark, kind_lookahead, kind_lookahead, hf.kind (hcur hs)]
    simp only [Step.shifted, Parser.perform, hm]
    split
    · exact ⟨_, _, rfl, h.take hf hs, rfl, .take r⟩
    · exact ⟨_, _, rfl, h, rfl, .refl r⟩
  | skip => exact absurd trivial (hc rfl).1
  | progress since =>
    have hp : p.position ≠ since := (hc rfl).1
    rw [Parser.perform, if_neg hp] at hst
    cases hst
    cases hk
    have hne : r.position ≠ since + d := by
      have hpos := h.position
      omega
    have hr : r.perform (.progress (since + d)) = (r, .ok []) := by
      rw [Parser.perform, if_neg hne]
    exact ⟨_, r, hr, h, rfl, .refl r⟩
  | expect e =>
    cases hk
    obtain ⟨hr, rfl, hc'⟩ := h.expect hf hc rfl hst hs []
    exact ⟨_, _, hr, hc', rfl, .take r⟩
  | expectThen e next =>
    obtain ⟨hr, rfl, hc'⟩ := h.expect hf hc rfl hst hs [next.shifted d]
    refine ⟨k, _, hr, hc', ?_, .take r⟩
    rw [levelBehind, show next.level? k = some k' from hk]
    rfl
  | complain m =>
    obtain ⟨hr, _⟩ := reportThen_ok hst
    exact absurd rfl (ne_true_of_report hc hst hr)
  | endOfText =>
    cases hk
    have hst' := hst
    simp only [Parser.perform] at hst
    split at hst
    · rename_i he
      cases hst
      have he' : r.current.isEof = true := (hf.isEof (hcur hs)).trans he
      have hr : r.perform .endOfText = (r.take, .ok []) := by rw [Parser.perform, if_pos he']
      exact ⟨_, _, hr, h.take hf hs, rfl, .take r⟩
    · obtain ⟨hr, _⟩ := reportThen_ok hst
      exact absurd rfl (ne_true_of_report hc hst' hr)
  | skipRest =>
    cases hk
    simp only [Parser.perform] at hst
    split at hst
    · rename_i he
      cases hst
      have he' : r.current.isEof = true := (hf.isEof (hcur hs)).trans he
      have hr : r.perform .skipRest = (r, .ok []) := by rw [Parser.perform, if_pos he']
      exact ⟨_, r, hr, h, rfl, .refl r⟩
    · rename_i he
      exact absurd (Bool.eq_false_iff.2 he) (hc rfl).1
  | typ part =>
    cases k with
    | zero => cases hk
    | succ k =>
      cases hk
      refine hpart _ ?_ rfl part.levelBehind
      rw [part.map_shifted, ← show _ = part.expand p.lookahead from hs, ← h.lookahead_eq]
      rfl
  | expr part =>
    cases k with
    | zero => cases hk
    | succ k =>
      cases hk
      refine hpart _ ?_ rfl (part.levelBehind _)
      rw [part.map_shifted, ← hs, ← h.lookahead_eq, ← h.tree.mark_eq]
      rfl
  | soql part =>
    cases k with
    | zero => cases hk
    | succ k =>
      cases hk
      refine hpart _ ?_ rfl part.levelBehind
      rw [part.map_shifted, ← show _ = part.expand p.lookahead from hs, ← h.lookahead_eq]
      rfl
  | stmt part =>
    refine hpart _ ?_ rfl (part.levelBehind hk)
    rw [← show _ = (part.expand p.lookahead).map (Step.shifted d) from hs, ← h.lookahead_eq]
    rfl
  | decl part =>
    refine hpart _ ?_ rfl (part.levelBehind hk)
    rw [← show _ = (part.expand p.lookahead).map (Step.shifted d) from hs, ← h.lookahead_eq]
    rfl

/-- A calm run of steps that all see the same is replayed. -/
theorem replay (hf : KeepsWords f) (hrun : Leads (fun p st => Calm true p st ∧ Sees f s d p st) ss p q)
    (hk : levelBehind k ss = some k') (h : Copies f b c s d k p r) :
    ∃ r', Runs (ss.map (Step.shifted d)) r r' ∧ Copies f b c s d k' q r' ∧ Quietly r r' := by
  induction hrun generalizing k k' r with
  | done p =>
    cases hk
    exact ⟨r, .done r, h, .refl r⟩
  | perform ha hp _ _ ih1 ih2 =>
    rw [levelBehind, Option.bind_eq_some_iff] at hk
    obtain ⟨k₁, hk1, hk2⟩ := hk
    obtain ⟨k₀, r1, hr1, hc1, hl, hq1⟩ := h.perform hf ha.1 ha.2 hp hk1
    obtain ⟨r2, hr2, hc2, hq2⟩ := ih1 hl hc1
    obtain ⟨r3, hr3, hc3, hq3⟩ := ih2 hk2 hc2
    exact ⟨r3, .perform trivial hr1 hr2 hr3, hc3, hq1.trans (hq2.trans hq3)⟩

end Copies

end Parser

end ApexSyntax
