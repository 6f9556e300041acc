-- What stands by itself on empty ground is read the same way behind other trees. The marks
-- of its parts are further on by the number of those trees; inside of the nodes that are
-- opened nothing changes.
import ApexSyntax.Proofs.Operands.Sights
import ApexSyntax.Proofs.Replay.Steps

namespace ApexSyntax

/-! ## Marks further on -/

/-- The part with its mark some trees further on. -/
def ExprPart.remarked (x : Nat) : ExprPart → ExprPart
  | assignment m => assignment (m + x)
  | alternatives m => alternatives (m + x)
  | operators level m => operators level (m + x)
  | suffixes m => suffixes (m + x)
  | initializerValues m => initializerValues (m + x)
  | initializerRest m => initializerRest (m + x)
  | p => p

namespace Step

def remarked (x : Nat) : Step → Step
  | wrap m r => wrap (m + x) r
  | expr p => expr (p.remarked x)
  | s => s

/-- The number of nodes that are open behind a step on the ground. -/
def groundLevel? : Step → Option Nat
  | start _ | wrap _ _ => some 1
  | take _ | expect _ | complain _ | typ _ | expr _ | soql _ => some 0
  | _ => none

end Step

/-- The number of nodes that are open behind some steps, of which the ground counts as one. -/
def levelFrom : Nat → List Step → Option Nat
  | k, [] => some k
  | 0, s :: ss => s.groundLevel?.bind fun k => levelFrom k ss
  | k + 1, s :: ss => (s.level? (k + 1)).bind fun k => levelFrom k ss

/-- The steps with the marks of those on the ground further on. -/
def remarkAll (x : Nat) : Nat → List Step → List Step
  | _, [] => []
  | 0, s :: ss => s.remarked x :: remarkAll x (s.groundLevel?.getD 0) ss
  | k + 1, s :: ss => s :: remarkAll x ((s.level? (k + 1)).getD 0) ss

section Parts

variable {v : Lookahead} {x : Nat}

theorem TypePart.levelFrom (p : TypePart) : levelFrom 0 (p.expand v) = some 0 := by
  cases p <;> simp only [expand] <;> repeat' split
  all_goals rfl

theorem TypePart.remarkAll (p : TypePart) : remarkAll x 0 (p.expand v) = p.expand v := by
  cases p <;> simp only [expand] <;> repeat' split
  all_goals rfl

theorem ExprPart.levelFrom (p : ExprPart) (mark : Nat) :
    levelFrom 0 (p.expand v mark) = some 0 := by
  cases p with
  | primary =>
    exact primarySteps_cases (P := fun ss =>
      ApexSyntax.levelFrom 0 (Step.start .primaryExpression :: ss ++ [Step.finish]) = some 0) v
      rfl rfl rfl rfl rfl rfl rfl rfl rfl
  | _ =>
    simp only [expand, unarySteps, rightOperand]
    repeat' split
    all_goals rfl

theorem ExprPart.expand_remarked (p : ExprPart) (mark : Nat) :
    (p.remarked x).expand v (mark + x) = remarkAll x 0 (p.expand v mark) := by
  cases p with
  | primary =>
    exact primarySteps_cases (P := fun ss => Step.start .primaryExpression :: ss ++ [Step.finish] =
      ApexSyntax.remarkAll x 0 (Step.start .primaryExpression :: ss ++ [Step.finish])) v
      rfl rfl rfl rfl rfl rfl rfl rfl rfl
  | _ =>
    simp only [remarked, expand, unarySteps, rightOperand]
    repeat' split
    all_goals rfl

theorem QueryPart.levelFrom (p : QueryPart) : levelFrom 0 (p.expand v) = some 0 := by
  cases p <;> simp only [expand, clause, selectEntrySteps, valueSteps] <;> repeat' split
  all_goals rfl

theorem QueryPart.remarkAll (p : QueryPart) : remarkAll x 0 (p.expand v) = p.expand v := by
  cases p <;> simp only [expand, clause, selectEntrySteps, valueSteps] <;> repeat' split
  all_goals rfl

end Parts

/-! ## Nodes on the ground -/

namespace Builder

theorem mark_addAll (b : Builder) (ts : List Tree) : (b.addAll ts).mark = b.mark + ts.length := by
  rcases b with ⟨ground, _ | ⟨⟨r, children⟩, rest⟩⟩
  · rw [addAll_ground]
    simp [mark, top]
  · rw [addAll_frame]
    simp [mark, top]

/-- A node that is opened around nothing. -/
theorem wrap_of_mark_le {b : Builder} {m : Nat} (h : b.mark ≤ m) (r : Rule) :
    b.wrap m r = b.start r := by
  rcases b with ⟨ground, _ | ⟨⟨s, children⟩, rest⟩⟩
  · have hle : ground.size ≤ m := h
    simp [wrap, start, hle]
  · have hle : children.size ≤ m := h
    simp [wrap, start, hle]

/-- Opening a node behind a mark splits the trees that were added. -/
theorem wrap_addAll_mark (b : Builder) (r : Rule) (ts : List Tree) (m : Nat) :
    (b.addAll ts).wrap (b.mark + m) r = ((b.addAll (ts.take m)).start r).addAll (ts.drop m) := by
  rcases Nat.lt_or_ge ts.length m with hlt | hle
  · rw [wrap_of_mark_le (by rw [mark_addAll]; omega), List.take_of_length_le (by omega),
      List.drop_of_length_le (by omega), addAll_nil]
  · have hsplit : b.addAll ts = (b.addAll (ts.take m)).addAll (ts.drop m) := by
      rw [← addAll_append, List.take_append_drop]
    have hmark : b.mark + m = (b.addAll (ts.take m)).mark := by
      rw [mark_addAll, List.length_take, Nat.min_eq_left hle]
    rw [hsplit, hmark, wrap_addAll]

theorem Beside.wrap_ground {f : Token → Token} {b c t u : Builder} (h : Beside f b c 0 t u)
    (m : Nat) (r : Rule) : Beside f b c 1 (t.wrap (b.mark + m) r) (u.wrap (c.mark + m) r) := by
  obtain ⟨ts, us, rfl, rfl, hsame⟩ := h.added
  rw [wrap_addAll_mark, wrap_addAll_mark]
  exact .opened r (.base (hsame.take m)) (hsame.drop m)

theorem Beside.mark_ground {f : Token → Token} {b c t u : Builder} (h : Beside f b c 0 t u)
    (hb : b.mark = 0) : u.mark = t.mark + c.mark := by
  obtain ⟨ts, us, rfl, rfl, hsame⟩ := h.added
  rw [mark_addAll, mark_addAll, hsame.length_eq, hb]
  omega

end Builder

/-! ## Runs on the ground -/

namespace Parser

section Grounds

variable {f : Token → Token} {b c : Builder} {s : TokenStream} {d k k' : Nat}
  {p p' q r : Parser} {st : Step} {ss more : List Step}

/-- A step on the ground is performed the same way behind other trees. -/
theorem Copies.perform_ground (hf : KeepsWords f) (hb : b.mark = 0) (h : Copies f b c s d 0 p r)
    (hc : Calm true p st) (hs : Sees f s d p st) (hst : p.perform st = (p', .ok more))
    (hk : st.groundLevel? = some k') :
    ∃ k₀ r', r.perform ((st.remarked c.mark).shifted d) =
        (r', .ok ((remarkAll c.mark k₀ more).map (Step.shifted d))) ∧
      Copies f b c s d k₀ p' r' ∧ levelFrom k₀ more = some k' ∧ Quietly r r' := by
  cases st with
  | wrap m rule =>
    cases hst
    cases hk
    have hwrap := h.tree.wrap_ground m rule
    rw [hb, Nat.zero_add, Nat.add_comm] at hwrap
    exact ⟨1, _, rfl, ⟨h.stream, h.position, hwrap⟩, rfl, .build _ _⟩
  | typ part =>
    cases hst
    cases hk
    refine ⟨0, r, ?_, h, part.levelFrom, .refl r⟩
    rw [part.remarkAll, part.map_shifted, ← show _ = part.expand p.lookahead from hs,
      ← h.lookahead_eq]
    rfl
  | soql part =>
    cases hst
    cases hk
    refine ⟨0, r, ?_, h, part.levelFrom, .refl r⟩
    rw [part.remarkAll, part.map_shifted, ← show _ = part.expand p.lookahead from hs,
      ← h.lookahead_eq]
    rfl
  | expr part =>
    cases hst
    cases hk
    refine ⟨0, r, ?_, h, part.levelFrom _, .refl r⟩
    rw [← hs, ← h.lookahead_eq, ← part.expand_remarked, ExprPart.map_shifted,
      ← h.tree.mark_ground hb]
    rfl
  | start rule =>
    cases hst
    cases hk
    exact ⟨1, _, rfl, h.build (h.tree.start rule), rfl, .build _ _⟩
  | take n =>
    cases hst
    cases hk
    exact ⟨0, _, rfl, h.takeMany hf n hs, rfl, .takeMany r n⟩
  | expect e =>
    cases hk
    obtain ⟨hr, rfl, hc'⟩ := h.expect hf hc rfl hst hs []
    exact ⟨0, _, hr, hc', rfl, .take r⟩
  | complain m =>
    obtain ⟨hr, _⟩ := reportThen_ok hst
    exact absurd rfl (ne_true_of_report hc hst hr)
  | _ => cases hk

/-- A calm run on the ground, of steps that all see the same, is replayed behind other
trees. -/
theorem Copies.replay_ground (hf : KeepsWords f) (hb : b.mark = 0)
    (hrun : Leads (fun p st => Calm true p st ∧ Sees f s d p st) ss p q)
    (hk : levelFrom k ss = some k') (h : Copies f b c s d k p r) :
    ∃ r', Runs ((remarkAll c.mark k ss).map (Step.shifted d)) r r' ∧
      Copies f b c s d k' q r' ∧ Quietly r r' := by
  induction hrun generalizing k k' r with
  | done p =>
    cases k <;> cases hk <;> exact ⟨r, .done r, h, .refl r⟩
  | @perform st more rest p p' q _ ha hp hm _ ih1 ih2 =>
    cases k with
    | zero =>
      rw [levelFrom, Option.bind_eq_some_iff] at hk
      obtain ⟨k₁, hk1, hk2⟩ := hk
      obtain ⟨k₀, r1, hr1, hc1, hl, hq1⟩ := h.perform_ground hf hb ha.1 ha.2 hp hk1
      obtain ⟨r2, hr2, hc2, hq2⟩ := ih1 hl hc1
      obtain ⟨r3, hr3, hc3, hq3⟩ := ih2 hk2 hc2
      refine ⟨r3, ?_, hc3, hq1.trans (hq2.trans hq3)⟩
      rw [remarkAll, hk1]
      exact .perform trivial hr1 hr2 hr3
    | succ k =>
      rw [levelFrom, Option.bind_eq_some_iff] at hk
      obtain ⟨k₁, hk1, hk2⟩ := hk
      have hone : levelBehind (k + 1) [st] = some k₁ := by
        rw [levelBehind, hk1]
        rfl
      obtain ⟨r1, hr1, hc1, hq1⟩ := h.replay hf (.perform ha hp hm (.done q)) hone
      obtain ⟨r2, hr2, hc2, hq2⟩ := ih2 hk2 hc1
      refine ⟨r2, ?_, hc2, hq1.trans hq2⟩
      rw [remarkAll, hk1]
      exact hr1.append hr2

end Grounds

end Parser

end ApexSyntax
