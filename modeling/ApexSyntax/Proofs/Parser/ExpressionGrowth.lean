-- The law of growth for the parts of expressions. A part that stands behind an
-- operand takes it into its node, so the levels of the operand before and behind
-- each part are what makes the nodes fit their productions.
import ApexSyntax.Proofs.Parser.Growth

namespace ApexSyntax

/-- The rule of the binary operators of a level. -/
structure Rule.IsBinary (r : Rule) (level : Nat) : Prop where
  level_lt : level < binaryLevels
  level_eq : r.level? = some (level : Int)
  production : r.expressionProduction? = some (binaryProduction r level)
  noStatement : r.statementProduction? = none

/-! ## Tokens ahead -/

section Ahead

variable {v : Lookahead} {ss : List Symbol} {ts : List Tree} {k : Int}

theorem Derives.behind {ss' : List Symbol} (h : Derives (.expression k :: ss) ts)
    (hm : ∀ us, Derives ss us → Derives ss' us) : Derives (.expression k :: ss') ts := by
  cases h with
  | expression hr hk h => exact .expression hr hk (hm _ h)

theorem exists_spells_mark {r : Rule} {m : Mark} (h : v.atMark m = true)
    (hm : [.mark m] ∈ r.operators) : ∃ o ∈ r.operators, v.Spells 1 o :=
  ⟨_, hm, spells_one (accepts_of_atMark h)⟩

/-- A comparison is written with one token. -/
theorem comparisonAhead_spells (h : v.comparisonAhead = true) :
    ∃ o ∈ Rule.cmpExpression.operators, v.Spells 1 o := by
  simp only [Lookahead.comparisonAhead, Bool.or_eq_true, Bool.and_eq_true] at h
  rcases h with ((h | h) | h) | h
  · exact exists_spells_mark h (by simp [Rule.operators])
  · exact exists_spells_mark h (by simp [Rule.operators])
  · exact exists_spells_mark h.1 (by simp [Rule.operators])
  · exact exists_spells_mark h.1 (by simp [Rule.operators])

theorem doubled_spells {m : Mark} (h : v.doubled m = true) : v.Spells 2 [.mark m, .mark m] := by
  simp only [Lookahead.doubled, Bool.and_eq_true] at h
  exact spells_two h.1.1 h.1.2

/-- The operator of a level is one of those of its rule. -/
theorem operatorAhead_spells {level n : Nat} {r : Rule} (h : v.operatorAhead level = some (r, n)) :
    r.IsBinary level ∧ ∃ o ∈ r.operators, v.Spells n o := by
  unfold Lookahead.operatorAhead at h
  split at h
  case h_7 =>
    split at h
    · rename_i ha
      cases h
      refine ⟨⟨by decide, rfl, rfl, rfl⟩, ?_⟩
      simp only [Bool.or_eq_true] at ha
      rcases ha with (((ha | ha) | ha) | ha) | ha
      all_goals exact exists_spells_mark ha (by simp [Rule.operators])
    · cases h
  case h_8 =>
    split at h
    · rename_i ha
      cases h
      exact ⟨⟨by decide, rfl, rfl, rfl⟩, _, List.mem_cons_self, spells_one (accepts_of_atKeyword ha)⟩
    · split at h
      · rename_i ha
        cases h
        exact ⟨⟨by decide, rfl, rfl, rfl⟩, comparisonAhead_spells ha⟩
      · cases h
  case h_9 =>
    split at h
    · rename_i ha
      cases h
      exact ⟨⟨by decide, rfl, rfl, rfl⟩, _, by simp [Rule.operators], doubled_spells ha⟩
    · split at h
      · rename_i ha
        cases h
        refine ⟨⟨by decide, rfl, rfl, rfl⟩, ?_⟩
        split
        · rename_i h2
          rw [Bool.and_eq_true] at h2
          simp only [Lookahead.doubled, Bool.and_eq_true] at ha
          exact ⟨[.mark .gt, .mark .gt, .mark .gt], by simp [Rule.operators],
            spells_three ha.1.1 ha.1.2 h2.1⟩
        · exact ⟨_, by simp [Rule.operators], doubled_spells ha⟩
      · cases h
  case h_10 =>
    split at h
    · rename_i ha
      cases h
      refine ⟨⟨by decide, rfl, rfl, rfl⟩, ?_⟩
      simp only [Bool.or_eq_true] at ha
      rcases ha with ha | ha
      all_goals exact exists_spells_mark ha (by simp [Rule.operators])
    · cases h
  case h_11 =>
    split at h
    · rename_i ha
      cases h
      refine ⟨⟨by decide, rfl, rfl, rfl⟩, ?_⟩
      simp only [Bool.or_eq_true] at ha
      rcases ha with (ha | ha) | ha
      all_goals exact exists_spells_mark ha (by simp [Rule.operators])
    · cases h
  case h_12 => cases h
  all_goals
    split at h
    · rename_i ha
      cases h
      exact ⟨⟨by decide, rfl, rfl, rfl⟩, exists_spells_mark ha (by simp [Rule.operators])⟩
    · cases h

end Ahead

/-! ## Operands that are taken into a node -/

namespace Parser

section Operands

variable {calm : Bool} {p p' q : Parser} {s : Step} {ss : List Step} {r : Rule} {b : Builder}
  {t : Tree} {k l : Int}

theorem IsExpression.looser (h : IsExpression calm k t) (hl : l ≤ k) : IsExpression calm l t :=
  ⟨h.1.looser hl, h.2⟩

theorem adds_of_isExpression (hq : q.tree = p.tree.add t) (h : IsExpression calm k t) :
    Adds calm [.expression k] [.expression k] p q :=
  ⟨[t], hq, h.1, fun _ => h.1, allFit_singleton h.2⟩

theorem Adds.isExpression {gs : List Symbol} (h : Adds calm [.expression k] gs p q) :
    ∃ t, q.tree = p.tree.add t ∧ IsExpression calm k t := by
  obtain ⟨ts, hq, hd, _, ht⟩ := h
  cases hd with
  | expression hr hk hd =>
    cases hd with
    | nil => exact ⟨_, hq, .expression hr hk .nil, ht _ List.mem_cons_self⟩

/-- An operand, and the part behind it that may take it into a larger expression. -/
theorem adds_of_regrows {a c : Step} (ha : a.shape.adds = true) (hf : a.opensFree = true)
    (hk : a.firm = [.expression k]) (hl : c.levels.1 ≤ k)
    (hc : c.shape = .regrows p.tree.mark) (h : GrowsAll calm [a, c] p q) :
    Adds calm [.expression c.levels.2] [.expression c.levels.2] p q := by
  obtain ⟨p', ⟨_, h1⟩, q', ⟨_, h2⟩, rfl⟩ := h
  have hadds := (adds_of_grows ha hf h1).mono (fun _ => firm_of_firmAt) (fun _ => calm_of_calmAt)
  rw [hk] at hadds
  obtain ⟨t, hp', ht⟩ := hadds.isExpression
  unfold Grows at h2
  rw [hc] at h2
  obtain ⟨t', hq, ht'⟩ := h2 p.tree t rfl hp' (ht.looser hl)
  exact adds_of_isExpression hq ht'

/-- A node around an operand is an expression of its own level, when it fits. -/
theorem isExpression_of_wrap (s : Step) (ss : List Step) (hs : adding (s :: ss) = true)
    (hl : r.level? = some l) (hn : r.statementProduction? = none)
    (hfit : ∀ ts, Derives (.expression k :: (s.firmAt p.lookahead ++ ss.flatMap Step.firm)) ts →
      DerivesExpression r ts)
    (h : GrowsAll calm (.wrap b.mark r :: (s :: ss) ++ [Step.finish]) p q) (hp : p.tree = b.add t)
    (ht : IsExpression calm k t) : ∃ t', q.tree = b.add t' ∧ IsExpression calm l t' := by
  obtain ⟨p1, ⟨hl1, hw⟩, h⟩ := h
  obtain ⟨q1, h1, q, ⟨_, hq⟩, rfl⟩ := Chain.append_iff.1 h
  have hp1 : p1 = p.build (·.wrap b.mark r) := hl1.single rfl
  have hlook : p1.lookahead = p.lookahead := by rw [hp1]; rfl
  have hw' : p1.tree = p.tree.wrap b.mark r := hw
  have hq' : q.tree = q1.tree.finish := hq
  have hopen : p1.tree = (b.start r).addAll [t] := by
    rw [hw', hp]
    exact b.wrap_addAll r [t]
  obtain ⟨ts, hts, hd, _, hall⟩ := adds_cons hs h1
  rw [hlook] at hd
  have hd' : Derives (.expression k :: (s.firmAt p.lookahead ++ ss.flatMap Step.firm)) (t :: ts) :=
    ht.1.append hd
  refine ⟨.node r (t :: ts), ?_, .expression hl (Int.le_refl l) .nil, .node ?_ ?_⟩
  · rw [hq', hts, hopen, ← Builder.addAll_append, Builder.finish_addAll_start]
    rfl
  · refine ⟨hfit _ hd', fun _ us hu => ?_⟩
    rw [hn] at hu
    cases hu
  · exact List.forall_mem_cons.2 ⟨ht.2, hall⟩

/-- A part that goes on behind the node that it has made. -/
theorem regrows_of_again {again : Step} (ss : List Step) (hs : again.shape = .regrows b.mark)
    (hk : again.levels.1 = k) (h : GrowsAll calm (ss ++ [again]) p q)
    (hwrap : ∀ q', GrowsAll calm ss p q' → ∃ t', q'.tree = b.add t' ∧ IsExpression calm k t') :
    ∃ t', q.tree = b.add t' ∧ IsExpression calm again.levels.2 t' := by
  obtain ⟨q1, h1, q, ⟨_, h2⟩, rfl⟩ := Chain.append_iff.1 h
  obtain ⟨t', hq1, ht'⟩ := hwrap q1 h1
  unfold Grows at h2
  rw [hs] at h2
  exact h2 b t' rfl hq1 (hk ▸ ht')

end Operands

/-! ## The parts behind an operand -/

section Behind

variable {calm : Bool} {p q : Parser} {v : Lookahead} {ts : List Tree}

theorem grows_assignment {m : Nat}
    (h : GrowsAll calm ((ExprPart.assignment m).expand p.lookahead p.tree.mark) p q) :
    Grows calm (.expr (.assignment m)) p q := by
  rintro b t rfl hp ht
  simp only [ExprPart.expand] at h
  split at h
  · rename_i hv
    refine isExpression_of_wrap (.take 1) [.expr .expression] rfl rfl rfl ?_ h hp ht
    rintro ts hd ss ⟨⟩
    exact hd.behind fun _ h' => h'.first hv
  · cases h
    have hle : (-2 : Int) ≤ -1 := by decide
    exact ⟨t, hp, ht.looser hle⟩

theorem grows_alternatives {m : Nat}
    (h : GrowsAll calm ((ExprPart.alternatives m).expand p.lookahead p.tree.mark) p q) :
    Grows calm (.expr (.alternatives m)) p q := by
  rintro b t rfl hp ht
  simp only [ExprPart.expand] at h
  split at h
  · rename_i hv
    refine isExpression_of_wrap (.take 1)
      [.expr .expression, .expect (.mark .colon), .expr .conditional] rfl rfl rfl ?_ h hp ht
    rintro ts hd ss ⟨⟩
    exact hd.behind fun _ h' => h'.first (accepts_of_atMark hv)
  · cases h
    have hle : (-1 : Int) ≤ 0 := by decide
    exact ⟨t, hp, ht.looser hle⟩

theorem derives_binary {level n : Nat} {r : Rule} (hop : v.operatorAhead level = some (r, n))
    (h : Derives (.expression level :: (v.symbols n ++ (rightOperand r level).firm)) ts) :
    DerivesExpression r ts := by
  obtain ⟨hr, o, ho, hspell⟩ := operatorAhead_spells hop
  have hfirm : (rightOperand r level).firm =
      [if r = .instanceOfExpression then .node .typeRef else .expression (level + 1)] := by
    unfold rightOperand
    split
    · rfl
    · have hmin : min (level + 1) binaryLevels = level + 1 := Nat.min_eq_left hr.level_lt
      simp [Step.firm, ExprPart.symbols, hmin]
  intro ss hs
  rw [hr.production] at hs
  cases hs
  rw [hfirm] at h
  exact h.behind fun us h' => .oneOf ho (hspell _ us h')

theorem grows_operators {level m : Nat}
    (h : GrowsAll calm ((ExprPart.operators level m).expand p.lookahead p.tree.mark) p q) :
    Grows calm (.expr (.operators level m)) p q := by
  rintro b t rfl hp ht
  simp only [ExprPart.expand] at h
  split at h
  · rename_i r n hop
    have hr := (operatorAhead_spells hop).1
    refine regrows_of_again (.wrap b.mark r :: [.take n, rightOperand r level] ++ [Step.finish])
      rfl rfl h fun q' hq' => ?_
    refine isExpression_of_wrap _ _ ?_ hr.level_eq hr.noStatement ?_ hq' hp ht
    · unfold rightOperand
      split <;> rfl
    · intro ts hd
      simp only [List.flatMap_cons, List.flatMap_nil, List.append_nil] at hd
      exact derives_binary hop hd
  · cases h
    exact ⟨t, hp, ht⟩

theorem grows_suffixes {m : Nat}
    (h : GrowsAll calm ((ExprPart.suffixes m).expand p.lookahead p.tree.mark) p q) :
    Grows calm (.expr (.suffixes m)) p q := by
  rintro b t rfl hp ht
  simp only [ExprPart.expand] at h
  split at h
  · rename_i hv
    refine regrows_of_again
      (Step.wrap b.mark .dotExpression :: [.take 1, .expr .member] ++ [Step.finish])
      rfl rfl h fun q' hq' => ?_
    refine isExpression_of_wrap (.take 1) [.expr .member] rfl rfl rfl ?_ hq' hp ht
    rintro ts hd ss ⟨⟩
    exact hd.behind fun us h' => spells_either hv _ us h'
  · split at h
    · rename_i hv
      refine regrows_of_again (Step.wrap b.mark .arrayExpression ::
        [.take 1, .expr .expression, .expect (.mark .rBrack)] ++ [Step.finish])
        rfl rfl h fun q' hq' => ?_
      refine isExpression_of_wrap (.take 1)
        [.expr .expression, .expect (.mark .rBrack)] rfl rfl rfl ?_ hq' hp ht
      rintro ts hd ss ⟨⟩
      exact hd.behind fun _ h' => h'.first (accepts_of_atMark hv)
    · split at h
      · rename_i hv
        refine regrows_of_again (Step.wrap b.mark .postOpExpression :: [.take 1] ++ [Step.finish])
          rfl rfl h fun q' hq' => ?_
        refine isExpression_of_wrap (.take 1) [] rfl rfl rfl ?_ hq' hp ht
        rintro ts hd ss ⟨⟩
        exact hd.behind fun us h' => spells_either hv _ us h'
      · cases h
        exact ⟨t, hp, ht⟩

end Behind

/-! ## Operands -/

section Parts

variable {calm : Bool} {p q : Parser} {ss : List Step} {r : Rule} {b : Builder} {ts : List Tree}

theorem adds_expression
    (h : GrowsAll calm (ExprPart.expression.expand p.lookahead p.tree.mark) p q) :
    Adds calm ExprPart.expression.symbols ExprPart.expression.symbols p q :=
  adds_of_regrows rfl rfl rfl (Int.le_refl _) rfl h

theorem adds_conditional
    (h : GrowsAll calm (ExprPart.conditional.expand p.lookahead p.tree.mark) p q) :
    Adds calm ExprPart.conditional.symbols ExprPart.conditional.symbols p q :=
  adds_of_regrows rfl rfl rfl (Int.le_refl _) rfl h

theorem adds_operand
    (h : GrowsAll calm (ExprPart.operand.expand p.lookahead p.tree.mark) p q) :
    Adds calm ExprPart.operand.symbols ExprPart.operand.symbols p q :=
  adds_of_regrows rfl rfl rfl (Int.le_refl _) rfl h

/-- Behind the last level of binary operators stand the prefixed operands. -/
theorem adds_binary {level : Nat}
    (h : GrowsAll calm ((ExprPart.binary level).expand p.lookahead p.tree.mark) p q) :
    Adds calm (ExprPart.binary level).symbols (ExprPart.binary level).symbols p q := by
  simp only [ExprPart.expand] at h
  split at h
  · rename_i hl
    have hmin : min (level + 1) binaryLevels = level + 1 := Nat.min_eq_left hl
    have hmin' : min level binaryLevels = level := Nat.min_eq_left (Nat.le_of_lt hl)
    have hle : (level : Int) ≤ (min (level + 1) binaryLevels : Nat) := by omega
    simp only [ExprPart.symbols, hmin']
    exact adds_of_regrows rfl rfl rfl hle rfl h
  · rename_i hl
    have hmin : min level binaryLevels = 11 := Nat.min_eq_right (Nat.not_lt.1 hl)
    simp only [ExprPart.symbols, hmin]
    obtain ⟨q, ⟨_, h⟩, rfl⟩ := h
    exact adds_of_grows rfl rfl h

/-- A prefixed operand is an expression when it fits. -/
theorem adds_prefixed (s : Step) (ss : List Step) (hs : adding (s :: ss) = true)
    (hl : r.level? = some 11) (hn : r.statementProduction? = none)
    (hfit : ∀ ts, Derives (s.firmAt p.lookahead ++ ss.flatMap Step.firm) ts →
      DerivesExpression r ts)
    (h : GrowsAll calm (.start r :: (s :: ss) ++ [Step.finish]) p q) :
    Adds calm [.expression 11] [.expression 11] p q := by
  have hnode : Adds calm [.node r] [.node r] p q := by
    refine adds_node h (fun p' q' hp' hb => hp' ▸ adds_cons hs hb) fun ts hf _ => ?_
    refine ⟨hfit ts hf, fun _ us hu => ?_⟩
    rw [hn] at hu
    cases hu
  exact hnode.mono (fun _ hd => hd.level hl (Int.le_refl _))
    (fun _ hd => hd.level hl (Int.le_refl _))

theorem adds_unary (h : GrowsAll calm (unarySteps p.lookahead) p q) :
    Adds calm [.expression 11] [.expression 11] p q := by
  have hprefixed : ∀ (r : Rule) (as : List (List Symbol)) (m : Mark), r.level? = some 11 →
      r.expressionProduction? = some [.oneOf as, .expression 11] →
      r.statementProduction? = none → p.lookahead.kind 0 = .mark m → [.mark m] ∈ as →
      GrowsAll calm [.start r, .take 1, .expr .unary, .finish] p q →
      Adds calm [.expression 11] [.expression 11] p q := by
    intro r as m hl hr hn hv hm h
    refine adds_prefixed (.take 1) [.expr .unary] rfl hl hn ?_ h
    intro ts hd ss hss
    rw [hr] at hss
    cases hss
    exact spells_oneOf hv hm _ ts hd
  have hoperand : GrowsAll calm [.expr .operand] p q →
      Adds calm [.expression 11] [.expression 11] p q := by
    rintro ⟨q, ⟨_, h⟩, rfl⟩
    have hle : (11 : Int) ≤ 12 := by decide
    exact (adds_of_grows rfl rfl h).mono (fun _ hd => hd.looser hle) (fun _ hd => hd.looser hle)
  unfold unarySteps at h
  split at h
  · rename_i hv
    exact hprefixed .preOpExpression _ _ rfl rfl rfl hv (by simp) h
  · rename_i hv
    exact hprefixed .preOpExpression _ _ rfl rfl rfl hv (by simp) h
  · rename_i hv
    exact hprefixed .preOpExpression _ _ rfl rfl rfl hv (by simp) h
  · rename_i hv
    exact hprefixed .preOpExpression _ _ rfl rfl rfl hv (by simp) h
  · rename_i hv
    exact hprefixed .negExpression _ _ rfl rfl rfl hv (by simp) h
  · rename_i hv
    exact hprefixed .negExpression _ _ rfl rfl rfl hv (by simp) h
  · rename_i hv
    split at h
    · refine adds_prefixed _ [.typ .type, .expect (.mark .rParen), .expr .unary]
        rfl rfl rfl ?_ h
      rintro ts hd ss ⟨⟩
      exact hd.first (accepts_of_kind hv)
    · exact hoperand h
  · exact hoperand h

theorem adds_primary
    (h : GrowsAll calm (ExprPart.primary.expand p.lookahead p.tree.mark) p q) :
    Adds calm [.expression 12] [.expression 12] p q := by
  have hfree : ∀ v, closes 0 (primarySteps v) = true ∧
      (primarySteps v).all Step.opensFree = true := fun v =>
    primarySteps_cases (P := fun ss => closes 0 ss = true ∧ ss.all Step.opensFree = true) v
      ⟨rfl, rfl⟩ ⟨rfl, rfl⟩ ⟨rfl, rfl⟩ ⟨rfl, rfl⟩ ⟨rfl, rfl⟩ ⟨rfl, rfl⟩ ⟨rfl, rfl⟩ ⟨rfl, rfl⟩
      ⟨rfl, rfl⟩
  have hnode := adds_freeNode _ rfl (hfree _).1 (hfree _).2 h
  exact hnode.mono (fun _ hd => hd.level rfl (Int.le_refl _))
    (fun _ hd => hd.level rfl (Int.le_refl _))

/-- A free node around all trees behind a mark holds trees that fit. -/
theorem gathers_of_free (ss : List Step) (hr : r.isFree = true) (hc : closes 0 ss = true)
    (hf : ss.all Step.opensFree = true)
    (h : GrowsAll calm (.wrap b.mark r :: ss ++ [Step.finish]) p q) (hp : p.tree = b.addAll ts)
    (ht : AllFit calm ts) : ∃ ts', q.tree = b.addAll ts' ∧ AllFit calm ts' := by
  obtain ⟨p1, ⟨_, hw⟩, h⟩ := h
  obtain ⟨q1, h1, q, ⟨_, hq⟩, rfl⟩ := Chain.append_iff.1 h
  have hw' : p1.tree = p.tree.wrap b.mark r := hw
  have hq' : q.tree = q1.tree.finish := hq
  obtain ⟨us, hus, _, _, hu⟩ := adds_of_free hc hf h1
  refine ⟨[.node r (ts ++ us)], ?_, allFit_singleton (.node (fits_of_isFree hr _ _) ?_)⟩
  · rw [hq', hus, hw', hp, Builder.wrap_addAll, ← Builder.addAll_append,
      Builder.finish_addAll_start]
    rfl
  · exact AllFit.append ht hu

theorem grows_initializerValues {m : Nat}
    (h : GrowsAll calm ((ExprPart.initializerValues m).expand p.lookahead p.tree.mark) p q) :
    Grows calm (.expr (.initializerValues m)) p q := by
  rintro b ts rfl hp ht
  simp only [ExprPart.expand] at h
  split at h
  · exact gathers_of_free [.take 1] rfl rfl rfl h hp ht
  · obtain ⟨p1, ⟨_, h1⟩, q, ⟨_, h2⟩, rfl⟩ := h
    obtain ⟨us, hus, _, _, hu⟩ := adds_of_grows rfl rfl h1
    refine h2 b (ts ++ us) rfl ?_ (AllFit.append ht hu)
    rw [hus, hp, Builder.addAll_append]

theorem grows_initializerRest {m : Nat}
    (h : GrowsAll calm ((ExprPart.initializerRest m).expand p.lookahead p.tree.mark) p q) :
    Grows calm (.expr (.initializerRest m)) p q := by
  rintro b ts rfl hp ht
  simp only [ExprPart.expand] at h
  split at h
  · exact gathers_of_free [.take 1, .expr .expression, .expr .mapEntries,
      .expect (.mark .rBrace)] rfl rfl rfl h hp ht
  · exact gathers_of_free [.expr .moreExpressions, .expect (.mark .rBrace)]
      rfl rfl rfl h hp ht

end Parts

end Parser

end ApexSyntax
