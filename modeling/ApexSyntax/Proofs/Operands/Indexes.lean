-- An index behind parentheses. What stands in them is read as an operand that the index is
-- taken of, unless the scan of a type passes it to its end: a bracket follows casts, so such
-- parentheses start one.
import ApexSyntax.Proofs.Operands.Casts
import ApexSyntax.Proofs.Operands.Openings

namespace ApexSyntax

/-- A text consists of the tokens of another between parentheses, and of those of a third one
between brackets behind them. -/
structure TokenStream.IsIndex (s e i : TokenStream) : Prop where
  opens : (s.nth 0).kind = .mark .lParen
  group : e.LiesIn s 1
  closes : (s.nth (e.visible.size + 1)).kind = .mark .rParen
  opensIndex : (s.nth (e.visible.size + 2)).kind = .mark .lBrack
  index : i.LiesIn s (e.visible.size + 3)
  closesIndex : (s.nth (i.visible.size + (e.visible.size + 3))).kind = .mark .rBrack
  size : s.visible.size = i.visible.size + (e.visible.size + 3) + 1

namespace TokenStream

variable {s e i : TokenStream}

theorem isIndex_iff : s.IsIndex e i ↔ (s.nth 0).kind = .mark .lParen ∧ e.LiesIn s 1 ∧
    (s.nth (e.visible.size + 1)).kind = .mark .rParen ∧
    (s.nth (e.visible.size + 2)).kind = .mark .lBrack ∧ i.LiesIn s (e.visible.size + 3) ∧
    (s.nth (i.visible.size + (e.visible.size + 3))).kind = .mark .rBrack ∧
    s.visible.size = i.visible.size + (e.visible.size + 3) + 1 :=
  ⟨fun ⟨h₁, h₂, h₃, h₄, h₅, h₆, h₇⟩ => ⟨h₁, h₂, h₃, h₄, h₅, h₆, h₇⟩,
    fun ⟨h₁, h₂, h₃, h₄, h₅, h₆, h₇⟩ => ⟨h₁, h₂, h₃, h₄, h₅, h₆, h₇⟩⟩

instance (s e i : TokenStream) : Decidable (s.IsIndex e i) := decidable_of_iff _ isIndex_iff.symm

/-- A type between the parentheses makes them a cast. -/
theorem IsIndex.castAhead_of_type (h : s.IsIndex e i)
    (ht : Lookahead.typeEnd? ⟨e, 0⟩ 0 = some e.visible.size) :
    Lookahead.castAhead ⟨s, 0⟩ = true := by
  have hclose : Lookahead.kind ⟨s, 0⟩ (1 + e.visible.size) = .mark .rParen := by
    rw [Lookahead.kind, Lookahead.nth, Nat.zero_add, Nat.add_comm]
    exact h.closes
  have hopen : Lookahead.kind ⟨s, 0⟩ (1 + e.visible.size + 1) = .mark .lBrack := by
    rw [Lookahead.kind, Lookahead.nth, Nat.zero_add, Nat.add_comm 1]
    exact h.opensIndex
  simp only [Lookahead.castAhead, Lookahead.typeEnd?_group h.group h.closes, ht, Option.map_some]
  rw [hclose, hopen]
  rfl

end TokenStream

namespace Parser

section Indexes

variable {p q r : Parser} {s e i : TokenStream} {j k n : Nat} {t te ti : Tree}

/-- An expression that is more than a type, between parentheses, is no type in parentheses. -/
theorem castAhead_of_expression (hin : e.LiesIn s 1) (hspelled : e.Spelled)
    (hk : (s.nth (e.visible.size + 1)).kind = .mark .rParen)
    (hp : p.stream = e ∧ p.position = 0) (he : p.Accepts .expression te)
    (ht : Lookahead.typeEnd? ⟨e, 0⟩ 0 ≠ some e.visible.size) :
    Lookahead.castAhead ⟨s, 0⟩ = false := by
  obtain ⟨rfl, hp0⟩ := hp
  have hlook := lookahead_fresh hp0
  simp only [Lookahead.castAhead, Lookahead.typeEnd?_group hin hk]
  cases hend : Lookahead.typeEnd? ⟨p.stream, 0⟩ 0 with
  | none => rfl
  | some m =>
    have hle := (Lookahead.typeEnd?_of_liesIn hin hk).2 m hend
    have hlt : m < p.stream.visible.size :=
      Nat.lt_of_le_of_ne hle fun hm => ht (by rw [hend, hm])
    obtain ⟨q, hrun, hpos, -⟩ := (readsAll_of_accepts he).tame rfl
    have hne := kind_typeEnd_ne hrun hspelled rfl (by rw [hlook, hend])
      (by rw [hpos, show p.fresh.position = 0 from hp0]; omega)
    rw [hlook, ← hin.kind hlt, Lookahead.kind, Lookahead.nth] at hne
    have hfalse : (Lookahead.kind ⟨s, 0⟩ (1 + m) == .mark .rParen) = false := by
      rw [Lookahead.kind, Lookahead.nth, Nat.zero_add]
      exact beq_false_of_ne hne
    rw [Option.map_some]
    dsimp only
    rw [hfalse, Bool.false_and]

/-- A cast is read where one comes next, and no operand with suffixes. -/
theorem rule_ne_arrayExpression {u : Tree} (h : Runs [.expr .expression] p q)
    (hk : p.lookahead.kind 0 = .mark .lParen) (hcast : p.lookahead.castAhead = true)
    (hq : q.tree = p.tree.add u) : u.rule? ≠ some .arrayExpression := by
  intro hrule
  have hoperand : u.IsOperand := ⟨_, _, hrule, rfl, by decide⟩
  obtain ⟨p', more, hs, hm⟩ := (unary_of_expression h hq hoperand.not_isLoose).inv
  have hsteps : unarySteps p.lookahead =
      Step.start .castExpression ::
        [.take 1, .typ .type, .expect (.mark .rParen), .expr .unary] ++ [Step.finish] := by
    simp only [unarySteps, hk, hcast, if_true]
    rfl
  rw [perform, ExprPart.expand, hsteps] at hs
  cases hs
  obtain ⟨p', hstart, hbody⟩ := hm.shaped
  have hp' : p'.tree = (p.tree.start .castExpression).addAll [] := hstart
  obtain ⟨ts, hts⟩ := node_of_closes rfl hbody hp'
  rw [p.tree.add_injective (hq.symm.trans hts)] at hrule
  cases hrule

/-- Parentheses that start no cast are an operand. -/
theorem ReadsAt.group (hopen : (s.nth j).kind = .mark .lParen)
    (h : ReadsAt s (j + 1) [.expr .expression] k [t])
    (hclose : (s.nth k).kind = .mark .rParen) :
    ReadsAt s j [.expr .primary] (k + 1)
      [.node .primaryExpression [.token (s.nth j), t, .token (s.nth k)]] := by
  have hkind : Lookahead.kind ⟨s, j⟩ 0 = .mark .lParen := hopen
  refine (ReadsAt.node ((ReadsAt.takeMark hopen).cons
    (h.cons (ReadsAt.expectMark hclose)))).expr fun _ => ?_
  rw [ExprPart.expand, primarySteps_of_lParen hkind]

/-- An index behind the last token of an operand. -/
theorem ReadsAt.indexed (h : ReadsAt s n [.expr .primary] j [t])
    (hopen : (s.nth j).kind = .mark .lBrack) (hi : ReadsAt s (j + 1) [.expr .expression] k [ti])
    (hclose : (s.nth k).kind = .mark .rBrack) (hend : s.visible.size = k + 1) :
    ReadsAt s n [.expr .operand] (k + 1)
      [.node .arrayExpression [t, .token (s.nth j), ti, .token (s.nth k)]] := by
  have hbrackets := (ReadsAt.takeMark hopen).cons (hi.cons (ReadsAt.expectMark hclose))
  intro p hs hp
  obtain ⟨q, us, hq, hquiet, hpos, htree, hsame⟩ := h p hs hp
  obtain ⟨r, vs, hr, hquiet', hpos', htree', hsame'⟩ :=
    hbrackets.wrapped .arrayExpression (hquiet.stream.trans hs) hpos htree
  have hat : q.lookahead = ⟨s, j⟩ := by rw [lookahead, hquiet.stream, hs, hpos]
  have hstop : r.lookahead = ⟨s, s.visible.size⟩ := by
    rw [lookahead, hquiet'.stream, hquiet.stream, hs, hpos', hend]
  have hnomore : Runs [.expr (.suffixes p.tree.mark)] r r :=
    runs_waiting (k := 14) (by decide) (by rw [hstop, continuation_at_end]; decide)
  have hsuffixes : Runs [.expr (.suffixes p.tree.mark)] q r := by
    refine runs_part ?_ (hr.append hnomore)
    have hbracket : Lookahead.kind ⟨s, j⟩ 0 = .mark .lBrack := hopen
    simp [perform, ExprPart.expand, hat, Lookahead.atMark, hbracket]
  exact ⟨r, _, runs_part rfl (hq.append hsuffixes), hquiet.trans hquiet', hpos', htree',
    (hsame.append hsame').node _⟩

/-- An index of what stands in parentheses. The texts in the parentheses and in the brackets
are read as expressions by themselves; the index is read with these two, up to the places of
their tokens, and nothing is reported, unless the scan of a type passes the first one to its
end. Then the parentheses start a cast, and no index is read. -/
theorem parentheses_take_index (hs : s.IsIndex e i)
    (hspelled : s.Spelled ∧ e.Spelled ∧ i.Spelled) (hp : p.stream = e ∧ p.position = 0)
    (hq : q.stream = i ∧ q.position = 0) (hr : r.stream = s ∧ r.position = 0)
    (he : p.Accepts .expression te) (hi : q.Accepts .expression ti) :
    (Lookahead.typeEnd? ⟨e, 0⟩ 0 ≠ some e.visible.size →
      ∃ u, r.Accepts .expression u ∧
        TreesAlike (.node .arrayExpression [.node .primaryExpression [.token (s.nth 0), te,
          .token (s.nth (e.visible.size + 1))], .token (s.nth (e.visible.size + 2)), ti,
          .token (s.nth (i.visible.size + (e.visible.size + 3)))]) u) ∧
    (Lookahead.typeEnd? ⟨e, 0⟩ 0 = some e.visible.size →
      ∀ u, r.Accepts .expression u → u.rule? ≠ some .arrayExpression) := by
  obtain ⟨hspelled, hspelled', hspelled''⟩ := hspelled
  constructor
  · intro ht
    have hcast := castAhead_of_expression hs.group hspelled' hs.closes hp he ht
    obtain ⟨⟨rfl, hp0⟩, rfl, hq0⟩ := hp, hq
    have hgroup : ReadsAt s 1 [.expr .expression] (p.stream.visible.size + 1) [te] := by
      refine (readsAll_of_accepts he).elsewhere rfl hp0 hspelled' hs.group
        (hspelled.stopsOperands hs.closes (.inl rfl)) ?_
      rw [hs.closes]
      exact nofun
    have hindex : ReadsAt s (p.stream.visible.size + 3) [.expr .expression]
        (q.stream.visible.size + (p.stream.visible.size + 3)) [ti] := by
      refine (readsAll_of_accepts hi).elsewhere rfl hq0 hspelled'' hs.index
        (hspelled.stopsOperands hs.closesIndex (.inr rfl)) ?_
      rw [hs.closesIndex]
      exact nofun
    have hoperand :=
      (ReadsAt.group hs.opens hgroup hs.closes).indexed hs.opensIndex hindex hs.closesIndex hs.size
    rw [← hs.size] at hoperand
    have hsteps : unarySteps ⟨s, 0⟩ = [.expr .operand] := by
      have hkind : Lookahead.kind ⟨s, 0⟩ 0 = .mark .lParen := hs.opens
      simp only [unarySteps, hkind, hcast, Bool.false_eq_true, if_false]
    exact (hoperand.unary hsteps).accepts_expression hr
  · intro ht u hu
    obtain ⟨v, hrun, -, -, htree⟩ := readsAll_of_accepts hu
    obtain ⟨rfl, hr0⟩ := hr
    have hlook := lookahead_fresh hr0
    refine rule_ne_arrayExpression hrun ?_ ?_ htree
    · rw [hlook]
      exact hs.opens
    · rw [hlook, hs.castAhead_of_type ht]

theorem parentheses_take_index_conditional :
    ∃ e, TokenStream.ofString .folded "flag ? (a) : b.c(d)" = .ok e ∧
    ∃ i, TokenStream.ofString .folded "(Integer) n + 1" = .ok i ∧
    ∃ s, TokenStream.ofString .folded "(flag ? (a) : b.c(d))[(Integer) n + 1]" = .ok s ∧
    ∃ te ti u, s.IsIndex e i ∧ (s.Spelled ∧ e.Spelled ∧ i.Spelled) ∧
      (ofStream e).Accepts .expression te ∧ (ofStream i).Accepts .expression ti ∧
      Lookahead.typeEnd? ⟨e, 0⟩ 0 ≠ some e.visible.size ∧
      (ofStream s).Accepts .expression u ∧
      TreesAlike (.node .arrayExpression [.node .primaryExpression [.token (s.nth 0), te,
        .token (s.nth (e.visible.size + 1))], .token (s.nth (e.visible.size + 2)), ti,
        .token (s.nth (i.visible.size + (e.visible.size + 3)))]) u := by
  have hread : ∃ e, TokenStream.ofString .folded "flag ? (a) : b.c(d)" = .ok e ∧
      ∃ i, TokenStream.ofString .folded "(Integer) n + 1" = .ok i ∧
      ∃ s, TokenStream.ofString .folded "(flag ? (a) : b.c(d))[(Integer) n + 1]" = .ok s ∧
        s.IsIndex e i ∧ Lookahead.typeEnd? ⟨e, 0⟩ 0 ≠ some e.visible.size ∧
        ((ofStream e).parse .expression).2.toOption.bind Tree.rule? = some .condExpression ∧
        ((ofStream e).parse .expression).1.errorCount = 0 ∧
        ((ofStream e).parse .expression).1.position = e.visible.size ∧
        ((ofStream i).parse .expression).2.toOption.bind Tree.rule? = some .arth2Expression ∧
        ((ofStream i).parse .expression).1.errorCount = 0 ∧
        ((ofStream i).parse .expression).1.position = i.visible.size := by
    decide +kernel
  obtain ⟨e, he, i, hi, s, hs, hindex, hmore, hrule, hsilent, hwhole, hrule', hsilent', hwhole'⟩ :=
    hread
  obtain ⟨te, haccepts, -⟩ := exists_accepts hrule hsilent hwhole
  obtain ⟨ti, haccepts', -⟩ := exists_accepts hrule' hsilent' hwhole'
  have hspelled : s.Spelled ∧ e.Spelled ∧ i.Spelled :=
    ⟨TokenStream.spelled_ofString hs, TokenStream.spelled_ofString he,
      TokenStream.spelled_ofString hi⟩
  obtain ⟨u, hu, halike⟩ := (parentheses_take_index (r := ofStream s) hindex hspelled ⟨rfl, rfl⟩
    ⟨rfl, rfl⟩ ⟨rfl, rfl⟩ haccepts haccepts').1 hmore
  exact ⟨e, he, i, hi, s, hs, te, ti, u, hindex, hspelled, haccepts, haccepts', hmore, hu, halike⟩

/-- A name alone is a type as well: in parentheses it is a cast of what stands in the brackets,
which is no operand, and an error is reported. -/
theorem name_in_parentheses_takes_no_index :
    ∃ e, TokenStream.ofString .folded "rows" = .ok e ∧
    ∃ i, TokenStream.ofString .folded "0" = .ok i ∧
    ∃ s, TokenStream.ofString .folded "(rows)[0]" = .ok s ∧ s.IsIndex e i ∧
      (∃ te, (ofStream e).Accepts .expression te) ∧ (∃ ti, (ofStream i).Accepts .expression ti) ∧
      ((ofStream s).parse .expression).1.errorCount = 1 ∧
      ¬∃ u, (ofStream s).Accepts .expression u ∧ u.rule? = some .arrayExpression := by
  have hread : ∃ e, TokenStream.ofString .folded "rows" = .ok e ∧
      ∃ i, TokenStream.ofString .folded "0" = .ok i ∧
      ∃ s, TokenStream.ofString .folded "(rows)[0]" = .ok s ∧ s.IsIndex e i ∧
        ((ofStream e).parse .expression).2.toOption.bind Tree.rule? = some .primaryExpression ∧
        ((ofStream e).parse .expression).1.errorCount = 0 ∧
        ((ofStream e).parse .expression).1.position = e.visible.size ∧
        ((ofStream i).parse .expression).2.toOption.bind Tree.rule? = some .primaryExpression ∧
        ((ofStream i).parse .expression).1.errorCount = 0 ∧
        ((ofStream i).parse .expression).1.position = i.visible.size ∧
        ((ofStream s).parse .expression).1.errorCount = 1 := by
    decide +kernel
  obtain ⟨e, he, i, hi, s, hs, hindex, hrule, hsilent, hwhole, hrule', hsilent', hwhole', herror⟩ :=
    hread
  obtain ⟨te, haccepts, -⟩ := exists_accepts hrule hsilent hwhole
  obtain ⟨ti, haccepts', -⟩ := exists_accepts hrule' hsilent' hwhole'
  refine ⟨e, he, i, hi, s, hs, hindex, ⟨te, haccepts⟩, ⟨ti, haccepts'⟩, herror, ?_⟩
  rintro ⟨u, hu, -⟩
  have hone : 1 = 0 := herror.symm.trans hu.silent
  cases hone

end Indexes

end Parser

end ApexSyntax
