-- Casts. A type in parentheses in front of an operand is a cast where the first token of the
-- operand is one that follows casts. Names that are keywords elsewhere start operands too,
-- and follow no cast.
import ApexSyntax.Proofs.Operands.Alone

namespace ApexSyntax

/-! ## Expressions that are operands -/

/-- The tree comes from an operator that binds looser than prefixes do. -/
def Tree.IsLoose (t : Tree) : Prop := ∃ r ts l, t = .node r ts ∧ r.level? = some l ∧ l < 11

theorem Builder.add_injective (b : Builder) : Function.Injective b.add := by
  intro t u h
  rcases b with ⟨ground, _ | ⟨⟨r, children⟩, rest⟩⟩
  · simpa [add, Array.push_eq_push] using h
  · simpa [add, Array.push_eq_push] using h

namespace Parser

section Operands

variable {allowed : Parser → Step → Prop} {p q : Parser} {b : Builder} {t : Tree} {k level : Nat}
  {r : Rule} {l : Int}

theorem loose_of_wrap (body : List Step) (hc : closes 0 body = true) (hr : r.level? = some l)
    (hl : l < 11) (h : Leads allowed (.wrap b.mark r :: body ++ [Step.finish]) p q)
    (hp : p.tree = b.add t) : ∃ u, q.tree = b.add u ∧ u.IsLoose := by
  obtain ⟨ts, hq⟩ := node_of_wrap body hc h.shaped (show p.tree = b.addAll [t] from hp)
  exact ⟨_, hq, r, ts, l, rfl, hr, hl⟩

/-- Behind an operand the operators of a level are not there, or leave a loose node. -/
theorem operators_loose (h : Leads allowed [.expr (.operators level b.mark)] p q)
    (hp : p.tree = b.add t) : q = p ∨ ∃ u, q.tree = b.add u ∧ u.IsLoose := by
  have hlaw := h.chain (C := fun s p q => s = .expr (.operators level b.mark) →
    (∃ t, p.tree = b.add t) → q = p ∨ ∃ u, q.tree = b.add u ∧ u.IsLoose) ?_
  · obtain ⟨_, ⟨_, hlaw⟩, rfl⟩ := hlaw
    exact hlaw rfl ⟨t, hp⟩
  · rintro s p p' more q hs - hm rfl ⟨t, ht⟩
    cases hs
    simp only [ExprPart.expand] at hm
    split at hm
    · next r n hop =>
      obtain ⟨p₁, ⟨h₁, _⟩, p₂, ⟨h₂, _⟩, p₃, ⟨h₃, _⟩, p₄, ⟨h₄, _⟩, q, ⟨_, hagain⟩, rfl⟩ := hm
      obtain ⟨hbinary, -⟩ := operatorAhead_spells hop
      have hlt : (level : Int) < 11 := Int.ofNat_lt.2 hbinary.level_lt
      have hloose : ∃ u, p₄.tree = b.add u ∧ u.IsLoose :=
        loose_of_wrap [.take n, rightOperand r level] (closes_operator n r level)
          hbinary.level_eq hlt (h₁.append (h₂.append (h₃.append h₄))) ht
      rcases hagain rfl ⟨_, hloose.choose_spec.1⟩ with rfl | hloose'
      · exact .inr hloose
      · exact .inr hloose'
    · cases hm
      exact .inl rfl

/-- What waits behind an operand at a stage does nothing, or leaves a loose node. -/
theorem waiting_loose (hk : k < 13) (h : Leads allowed (ApexSyntax.waiting b.mark k) p q)
    (hp : p.tree = b.add t) : q = p ∨ ∃ u, q.tree = b.add u ∧ u.IsLoose := by
  match k, hk with
  | 0, _ =>
    obtain ⟨p', more, hs, hm⟩ := Leads.inv h
    cases hs
    simp only [ExprPart.expand] at hm
    split at hm
    · exact .inr (loose_of_wrap [.take 1, .expr .expression] rfl rfl (by decide) hm hp)
    · cases hm
      exact .inl rfl
  | 1, _ =>
    obtain ⟨p', more, hs, hm⟩ := Leads.inv h
    cases hs
    simp only [ExprPart.expand] at hm
    split at hm
    · exact .inr (loose_of_wrap [.take 1, .expr .expression, .expect (.mark .colon),
        .expr .conditional] rfl rfl (by decide) hm hp)
    · cases hm
      exact .inl rfl
  | k + 2, hk =>
    rw [waiting_binary (Nat.lt_of_add_lt_add_right hk)] at h
    exact operators_loose h hp

/-- A stage reads an expression of the next one, and then what waits behind it. -/
theorem stage_inv (hk : k < 13) (h : Leads allowed [stage k] p q) :
    ∃ p', Leads allowed [stage (k + 1)] p p' ∧
      Leads allowed (ApexSyntax.waiting p.tree.mark k) p' q := by
  match k, hk with
  | 0, _ =>
    obtain ⟨p', more, hs, hm⟩ := Leads.inv h
    cases hs
    exact hm.uncons
  | 1, _ =>
    obtain ⟨p', more, hs, hm⟩ := Leads.inv h
    cases hs
    exact hm.uncons
  | k + 2, hk =>
    have hlt : k < binaryLevels := Nat.lt_of_add_lt_add_right hk
    rw [stage_binary hlt] at h
    obtain ⟨p', more, hs, hm⟩ := h.inv
    rw [perform, ExprPart.expand, if_pos hlt] at hs
    cases hs
    obtain ⟨p', hfirst, hrest⟩ := hm.uncons
    refine ⟨p', ?_, by rwa [waiting_binary hlt]⟩
    by_cases hlast : k + 1 < binaryLevels
    · rwa [stage_binary hlast]
    · obtain rfl : k = 10 := by
        have h11 : binaryLevels = 11 := rfl
        omega
      obtain ⟨p₁, more, hs, hm⟩ := hfirst.inv
      cases hs
      exact hm

theorem tree_of_stage (h : Leads allowed [stage k] p q) : ∃ u, q.tree = p.tree.add u := by
  have hshape : (stage k).shape = .node := by
    rcases k with - | - | k
    · rfl
    · rfl
    · unfold stage
      repeat' split
      all_goals rfl
  obtain ⟨q, hnode, rfl⟩ := h.shaped
  rw [hshape] at hnode
  obtain ⟨r, ts, hq⟩ := hnode
  exact ⟨_, hq⟩

/-- An expression that is no loose node is an operand. -/
theorem unary_of_expression (h : Leads allowed [.expr .expression] p q)
    (hq : q.tree = p.tree.add t) (ht : ¬t.IsLoose) : Leads allowed [.expr .unary] p q := by
  have hstages : ∀ k ≤ 13, Leads allowed [stage k] p q := by
    intro k hk
    induction k with
    | zero => exact h
    | succ k ih =>
      obtain ⟨p', hfirst, hwaiting⟩ := stage_inv hk (ih (Nat.le_of_succ_le hk))
      obtain ⟨u, hp'⟩ := tree_of_stage hfirst
      rcases waiting_loose hk hwaiting hp' with rfl | ⟨v, hv, hloose⟩
      · exact hfirst
      · rw [p.tree.add_injective (hq.symm.trans hv)] at ht
        exact absurd hloose ht
  exact hstages 13 (Nat.le_refl 13)

end Operands

end Parser

/-! ## Casts -/

/-- The tree is a prefixed operand, a cast or an operand with its suffixes. -/
def Tree.IsOperand (t : Tree) : Prop := ∃ r l, t.rule? = some r ∧ r.level? = some l ∧ 11 ≤ l

theorem Tree.IsOperand.not_isLoose {t : Tree} (h : t.IsOperand) : ¬t.IsLoose := by
  rintro ⟨r, ts, l, rfl, hl, hlt⟩
  obtain ⟨_, l', ⟨⟩, hl', hle⟩ := h
  obtain rfl : l = l' := Option.some.inj (hl.symm.trans hl')
  omega

/-- A text consists of the tokens of another between parentheses, and of those of a third one
behind them. -/
structure TokenStream.IsCast (s t e : TokenStream) : Prop where
  opens : (s.nth 0).kind = .mark .lParen
  type : t.LiesIn s 1
  closes : (s.nth (t.visible.size + 1)).kind = .mark .rParen
  operand : e.LiesIn s (t.visible.size + 2)
  size : s.visible.size = e.visible.size + (t.visible.size + 2)

namespace TokenStream

variable {s t e : TokenStream}

theorem isCast_iff : s.IsCast t e ↔ (s.nth 0).kind = .mark .lParen ∧ t.LiesIn s 1 ∧
    (s.nth (t.visible.size + 1)).kind = .mark .rParen ∧ e.LiesIn s (t.visible.size + 2) ∧
    s.visible.size = e.visible.size + (t.visible.size + 2) :=
  ⟨fun ⟨h₁, h₂, h₃, h₄, h₅⟩ => ⟨h₁, h₂, h₃, h₄, h₅⟩,
    fun ⟨h₁, h₂, h₃, h₄, h₅⟩ => ⟨h₁, h₂, h₃, h₄, h₅⟩⟩

instance (s t e : TokenStream) : Decidable (s.IsCast t e) := decidable_of_iff _ isCast_iff.symm

/-- The scan finds the type between the parentheses. -/
theorem IsCast.typeEnd? (h : s.IsCast t e)
    (ht : Lookahead.typeEnd? ⟨t, 0⟩ 0 = some t.visible.size) :
    Lookahead.typeEnd? ⟨s, 0⟩ 1 = some (1 + t.visible.size) := by
  rw [Lookahead.typeEnd?_group h.type h.closes, ht]
  rfl

/-- The kind of the first token of the operand is that of the token behind the parentheses. -/
theorem IsCast.kind_first (h : s.IsCast t e) :
    (s.nth (t.visible.size + 2)).kind = (e.nth 0).kind := by
  rcases Nat.eq_zero_or_pos e.visible.size with h0 | hpos
  · rw [nth_of_le (by rw [h.size]; omega), nth_of_le (Nat.le_of_eq h0), kind_eof, kind_eof]
  · rw [← keepsWords_placeless.kind (h.operand.window 0 hpos), Nat.zero_add]

theorem IsCast.castAhead (h : s.IsCast t e)
    (ht : Lookahead.typeEnd? ⟨t, 0⟩ 0 = some t.visible.size) :
    Lookahead.castAhead ⟨s, 0⟩ = (e.nth 0).kind.followsCast := by
  have hclose : Lookahead.kind ⟨s, 0⟩ (1 + t.visible.size) = .mark .rParen := by
    rw [Lookahead.kind, Lookahead.nth, Nat.zero_add, Nat.add_comm]
    exact h.closes
  have hfirst : Lookahead.kind ⟨s, 0⟩ (1 + t.visible.size + 1) = (e.nth 0).kind := by
    rw [← h.kind_first, Lookahead.kind, Lookahead.nth, Nat.zero_add, Nat.add_comm 1]
  simp only [Lookahead.castAhead, h.typeEnd? ht]
  rw [hclose, hfirst, beq_self_eq_true, Bool.true_and]

end TokenStream

namespace Parser

section Casts

variable {p r : Parser} {s t e : TokenStream} {te tt : Tree} {i j n : Nat}

/-- A type in parentheses and an operand behind them. -/
theorem ReadsAt.cast (hcast : Lookahead.castAhead ⟨s, i⟩ = true)
    (hopen : (s.nth i).kind = .mark .lParen) (ht : ReadsAt s (i + 1) [.typ .type] j [tt])
    (hclose : (s.nth j).kind = .mark .rParen) (he : ReadsAt s (j + 1) [.expr .unary] n [te]) :
    ReadsAt s i [.expr .unary] n [.node .castExpression
      [.token (s.nth i), tt, .token (s.nth j), te]] := by
  have hkind : Lookahead.kind ⟨s, i⟩ 0 = .mark .lParen := hopen
  refine (ReadsAt.node ((ReadsAt.takeMark hopen).cons
    (ht.cons ((ReadsAt.expectMark hclose).cons he)))).expr fun _ => ?_
  simp only [ExprPart.expand, unarySteps, hkind, hcast, if_true]
  rfl

/-- An operand that is no prefixed one and no cast. -/
theorem ReadsAt.unary (h : ReadsAt s i [.expr .operand] j [te])
    (hsteps : unarySteps ⟨s, i⟩ = [.expr .operand]) : ReadsAt s i [.expr .unary] j [te] :=
  h.expr fun _ => hsteps

/-- A text that is a type is read as one. -/
theorem readsAll_of_typeEnd (t : TokenStream)
    (ht : Lookahead.typeEnd? ⟨t, 0⟩ 0 = some t.visible.size) :
    ∃ tt, (ofStream t).ReadsAll (.typ .type) tt ∧ TypeOver ⟨t, 0⟩ t.visible.size tt := by
  obtain ⟨q, tt, hrun, hstands, htree, hover⟩ := exists_typeOver (p := ofStream t) rfl ht
  exact ⟨tt, ⟨q, hrun, hstands.errorCount, hstands.position.trans (Nat.zero_add _), htree⟩, hover⟩

theorem readsAll_unary (h : p.Accepts .expression te) (ht : te.IsOperand) :
    p.ReadsAll (.expr .unary) te := by
  obtain ⟨q, hrun, hrest⟩ := readsAll_of_accepts h
  exact ⟨q, unary_of_expression hrun hrest.2.2 ht.not_isLoose, hrest⟩

/-- Behind parentheses that start no cast stands no cast: the operand in them is one with its
suffixes, and operators behind it are looser. -/
theorem rule_ne_castExpression {q : Parser} {u : Tree} (h : Runs [.expr .expression] p q)
    (hk : p.lookahead.kind 0 = .mark .lParen) (hcast : p.lookahead.castAhead = false)
    (hq : q.tree = p.tree.add u) : u.rule? ≠ some .castExpression := by
  by_cases hloose : u.IsLoose
  · obtain ⟨rule, ts, l, rfl, hl, hlt⟩ := hloose
    rintro ⟨⟩
    cases hl
    exact absurd hlt (by decide)
  · obtain ⟨p', more, hs, hm⟩ := (unary_of_expression h hq hloose).inv
    have hsteps : unarySteps p.lookahead = [.expr .operand] := by
      simp only [unarySteps, hk, hcast, Bool.false_eq_true, if_false]
    rw [perform, ExprPart.expand, hsteps] at hs
    cases hs
    have hgrows : GrowsAll false [.expr .operand] p q :=
      growsAll (hm.mono fun _ _ _ hc => absurd hc Bool.false_ne_true)
    obtain ⟨q, ⟨-, hgrows⟩, rfl⟩ := hgrows
    obtain ⟨u', hu', hderives, -⟩ := (adds_of_grows rfl rfl hgrows).isExpression
    rw [p.tree.add_injective (hq.symm.trans hu')]
    cases hderives with
    | expression hl hle =>
      rintro ⟨⟩
      cases hl
      exact absurd hle (by decide)

/-- A type in parentheses and an operand are read as a cast. The text in the parentheses is
one that the scan of a type passes to its end, and the text behind them one that is read as
an operand by itself; the cast has these two, up to the places of their tokens, and nothing
is reported. The first token of the operand has to be one that follows casts: a name that is
a keyword elsewhere starts operands and is none, and then no cast is read. -/
theorem casts_read_operands (hs : s.IsCast t e) (hspelled : s.Spelled ∧ t.Spelled ∧ e.Spelled)
    (ht : Lookahead.typeEnd? ⟨t, 0⟩ 0 = some t.visible.size)
    (hp : p.stream = e ∧ p.position = 0) (hr : r.stream = s ∧ r.position = 0)
    (he : p.Accepts .expression te) (hoperand : te.IsOperand) :
    ((e.nth 0).kind.followsCast = true →
      ∃ tt u, TypeOver ⟨t, 0⟩ t.visible.size tt ∧ r.Accepts .expression u ∧
        TreesAlike (.node .castExpression [.token (s.nth 0), tt,
          .token (s.nth (t.visible.size + 1)), te]) u) ∧
    ((e.nth 0).kind.followsCast = false →
      ∀ u, r.Accepts .expression u → u.rule? ≠ some .castExpression) := by
  obtain ⟨rfl, hp0⟩ := hp
  obtain ⟨hspelled, hspelled', hspelled''⟩ := hspelled
  constructor
  · intro hf
    obtain ⟨tt, htype, hover⟩ := readsAll_of_typeEnd t ht
    have htype' : ReadsAt s 1 [.typ .type] (t.visible.size + 1) [tt] :=
      htype.elsewhere rfl rfl hspelled' hs.type (hspelled.stopsOperands hs.closes (.inl rfl)) nofun
    have hend : s.visible.size ≤ p.stream.visible.size + (t.visible.size + 2) :=
      Nat.le_of_eq hs.size
    have hoperand' : ReadsAt s (t.visible.size + 2) [.expr .unary] s.visible.size [te] := by
      rw [hs.size]
      refine (readsAll_unary he hoperand).elsewhere rfl hp0 hspelled'' hs.operand
        (TokenStream.stopsOperands_of_size_le hend) ?_
      rw [TokenStream.followsCast_of_size_le hend]
      exact nofun
    have hunary := ReadsAt.cast ((hs.castAhead ht).trans hf) hs.opens htype' hs.closes hoperand'
    obtain ⟨u, hu, halike⟩ := hunary.accepts_expression hr
    exact ⟨tt, u, hover, hu, halike⟩
  · intro hf u hu
    obtain ⟨q, hrun, -, -, htree⟩ := readsAll_of_accepts hu
    obtain ⟨rfl, hr0⟩ := hr
    have hlook := lookahead_fresh hr0
    refine rule_ne_castExpression hrun ?_ ?_ htree
    · rw [hlook]
      exact hs.opens
    · rw [hlook, hs.castAhead ht, hf]

theorem casts_read_operands_generic :
    ∃ t, TokenStream.ofString .folded "Map<Id, List<b.C>>[]" = .ok t ∧
    ∃ e, TokenStream.ofString .folded "rows.get(0).size++" = .ok e ∧
    ∃ s, TokenStream.ofString .folded "(Map<Id, List<b.C>>[]) rows.get(0).size++" = .ok s ∧
    ∃ te tt u, s.IsCast t e ∧ (s.Spelled ∧ t.Spelled ∧ e.Spelled) ∧
      Lookahead.typeEnd? ⟨t, 0⟩ 0 = some t.visible.size ∧
      (ofStream e).Accepts .expression te ∧ te.IsOperand ∧
      (e.nth 0).kind.followsCast = true ∧ TypeOver ⟨t, 0⟩ t.visible.size tt ∧
      (ofStream s).Accepts .expression u ∧
      TreesAlike (.node .castExpression [.token (s.nth 0), tt,
        .token (s.nth (t.visible.size + 1)), te]) u := by
  have hread : ∃ t, TokenStream.ofString .folded "Map<Id, List<b.C>>[]" = .ok t ∧
      ∃ e, TokenStream.ofString .folded "rows.get(0).size++" = .ok e ∧
      ∃ s, TokenStream.ofString .folded "(Map<Id, List<b.C>>[]) rows.get(0).size++" = .ok s ∧
        s.IsCast t e ∧ Lookahead.typeEnd? ⟨t, 0⟩ 0 = some t.visible.size ∧
        (e.nth 0).kind.followsCast = true ∧
        ((ofStream e).parse .expression).2.toOption.bind Tree.rule? = some .postOpExpression ∧
        ((ofStream e).parse .expression).1.errorCount = 0 ∧
        ((ofStream e).parse .expression).1.position = e.visible.size := by
    decide +kernel
  obtain ⟨t, ht, e, he, s, hs, hcast, htype, hf, hrule, hsilent, hwhole⟩ := hread
  obtain ⟨te, haccepts, hte⟩ := exists_accepts hrule hsilent hwhole
  have hspelled : s.Spelled ∧ t.Spelled ∧ e.Spelled :=
    ⟨TokenStream.spelled_ofString hs, TokenStream.spelled_ofString ht,
      TokenStream.spelled_ofString he⟩
  have hoperand : te.IsOperand := ⟨_, _, hte, rfl, by decide⟩
  obtain ⟨tt, u, hover, hu, halike⟩ := (casts_read_operands (r := ofStream s) hcast hspelled htype
    ⟨rfl, rfl⟩ ⟨rfl, rfl⟩ haccepts hoperand).1 hf
  exact ⟨t, ht, e, he, s, hs, te, tt, u, hcast, hspelled, htype, haccepts, hoperand, hf, hover,
    hu, halike⟩

/-- A name that is a keyword elsewhere starts an operand, and a type in parentheses in front of
it is no cast: an error is reported. -/
theorem trigger_not_read_as_operand :
    ∃ t, TokenStream.ofString .folded "List<Account>" = .ok t ∧
    ∃ e, TokenStream.ofString .folded "Trigger.new" = .ok e ∧
    ∃ s, TokenStream.ofString .folded "(List<Account>) Trigger.new" = .ok s ∧
      s.IsCast t e ∧ Lookahead.typeEnd? ⟨t, 0⟩ 0 = some t.visible.size ∧
      (e.nth 0).isIdentifier = true ∧
      (∃ te, (ofStream e).Accepts .expression te ∧ te.IsOperand) ∧
      ((ofStream s).parse .expression).1.errorCount = 1 ∧
      ¬∃ u, (ofStream s).Accepts .expression u ∧ u.rule? = some .castExpression := by
  have hread : ∃ t, TokenStream.ofString .folded "List<Account>" = .ok t ∧
      ∃ e, TokenStream.ofString .folded "Trigger.new" = .ok e ∧
      ∃ s, TokenStream.ofString .folded "(List<Account>) Trigger.new" = .ok s ∧
        s.IsCast t e ∧ Lookahead.typeEnd? ⟨t, 0⟩ 0 = some t.visible.size ∧
        (e.nth 0).isIdentifier = true ∧
        ((ofStream e).parse .expression).2.toOption.bind Tree.rule? = some .dotExpression ∧
        ((ofStream e).parse .expression).1.errorCount = 0 ∧
        ((ofStream e).parse .expression).1.position = e.visible.size ∧
        ((ofStream s).parse .expression).1.errorCount = 1 := by
    decide +kernel
  obtain ⟨t, ht, e, he, s, hs, hcast, htype, hname, hrule, hsilent, hwhole, herror⟩ := hread
  obtain ⟨te, haccepts, hte⟩ := exists_accepts hrule hsilent hwhole
  refine ⟨t, ht, e, he, s, hs, hcast, htype, hname, ⟨te, haccepts, _, _, hte, rfl, by decide⟩,
    herror, ?_⟩
  rintro ⟨u, hu, -⟩
  have hone : 1 = 0 := herror.symm.trans hu.silent
  cases hone

end Casts

end Parser

end ApexSyntax
