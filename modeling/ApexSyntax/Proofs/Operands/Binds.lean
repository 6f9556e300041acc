-- Operands that a colon binds in queries. A query goes on behind the operand with a word that
-- is a name elsewhere. Operands end in front of names, but parentheses around a type that
-- stand last in one are a cast of the name.
import ApexSyntax.Proofs.Operands.Filters

namespace ApexSyntax

namespace Parser

/-! ## Casts of what stands behind -/

section Groups

variable {s e : TokenStream} {v : Lookahead} {d i j k n : Nat} {t : Tree}

/-- A type that is scanned is read at its place. -/
theorem ReadsAt.type (h : Lookahead.typeEnd? ⟨s, i⟩ 0 = some n) :
    ∃ t, ReadsAt s i [.typ .type] (i + n) [t] := by
  let p : Parser := { ofStream s with position := i }
  obtain ⟨q, t, hrun, hq, htree, -⟩ := exists_typeOver (p := p) rfl h
  have htame := tame_of_runs hrun rfl rfl hq.errorCount
  have hreads : ReadsAt s i [.typ .type] q.position [t] := readsAt_of_tame htame rfl rfl htree
  rw [hq.position] at hreads
  exact ⟨t, hreads⟩

/-- A name that starts no call and no type is an operand. -/
theorem ReadsAt.name (hs : s.Spelled) (hk : (s.nth i).kind = .identifier)
    (hw : (s.nth (i + 1)).word ≠ "") :
    ReadsAt s i [.expr .unary] (i + 1) [.node .primaryExpression [.token (s.nth i)]] := by
  have hkind : Lookahead.kind ⟨s, i⟩ 0 = .identifier := hk
  have hnext : ∀ m, Lookahead.kind ⟨s, i⟩ 1 ≠ .mark m := fun m => hs.ne_mark hw
  have hname : Lookahead.isTypeName ⟨s, i⟩ 0 = true := by
    simp [Lookahead.isTypeName, Token.isTypeName, Token.isIdentifier, Lookahead.nth, hk]
  have hsteps : primarySteps ⟨s, i⟩ = [.take 1] := by
    simp [primarySteps, Lookahead.atKeyword, Lookahead.atMark, hkind, Kind.isLiteral, hname, hnext,
      Lookahead.classReferenceAhead]
  have hprimary : ReadsAt s i [.expr .primary] (i + 1)
      [.node .primaryExpression [.token (s.nth i)]] := by
    refine (ReadsAt.node (.take (by rw [hk]; decide))).expr fun _ => ?_
    rw [ExprPart.expand, hsteps]
  refine ReadsAt.unary (fun p hp hpos => ?_) (by simp only [unarySteps, hkind])
  obtain ⟨q, us, hq, hquiet, hqpos, hrest⟩ := hprimary p hp hpos
  have hnomore : Runs [.expr (.suffixes p.tree.mark)] q q := by
    refine runs_waiting (k := 14) (by decide) ?_
    have hword : (q.lookahead.kind 0).isWord = true := by
      rw [lookahead, hquiet.stream, hp, hqpos]
      exact hs.isWord_kind hw
    unfold Lookahead.continuation
    split <;> simp_all [Kind.isWord]
  exact ⟨q, us, runs_part rfl (hq.append hnomore), hquiet, hqpos, hrest⟩

/-- Parentheses around a type are a cast of the operand behind them. -/
theorem reads_cast (hin : e.LiesIn s d) (hopen : Lookahead.kind ⟨e, i⟩ 0 = .mark .lParen)
    (htype : Lookahead.typeEnd? ⟨e, i⟩ 1 = some n)
    (hclose : Lookahead.kind ⟨e, i⟩ n = .mark .rParen)
    (hf : (s.nth (i + d + n + 1)).kind.followsCast = true)
    (ho : ReadsAt s (i + d + n + 1) [.expr .unary] k [t]) :
    ∃ u, ReadsAt s (i + d) [.expr .unary] k [u] := by
  have hlast : n < e.visible.size - i := Lookahead.lt_left (by rw [hclose]; exact nofun)
  have hkind : ∀ m ≤ n, Lookahead.kind ⟨s, i + d⟩ m = Lookahead.kind ⟨e, i⟩ m :=
    fun m hm => hin.kind_at (by omega)
  have hpos : 0 < n := by
    refine Nat.pos_of_ne_zero ?_
    rintro rfl
    cases hopen.symm.trans hclose
  have hclose' : Lookahead.kind ⟨s, i + d⟩ n = .mark .rParen :=
    (hkind n (Nat.le_refl n)).trans hclose
  have hend : Lookahead.typeEnd? ⟨s, i + d⟩ 1 = some n :=
    (Lookahead.typeEnd?_of_closing (fun m hm => hkind m (Nat.le_of_lt hm)) (.inl hclose) hclose'
      hpos).1.trans htype
  have hcast : Lookahead.castAhead ⟨s, i + d⟩ = true := by
    simp only [Lookahead.castAhead, hend]
    rw [hclose', beq_self_eq_true, Bool.true_and]
    exact hf
  have hbehind := Lookahead.typeEnd?_behind ⟨s, i + d⟩ 1 0
  rw [Nat.add_zero, hend, eq_comm, Option.map_eq_some_iff] at hbehind
  obtain ⟨m, hm, rfl⟩ := hbehind
  obtain ⟨tt, htt⟩ : ∃ tt, ReadsAt s (i + d + 1) [.typ .type] (i + d + 1 + m) [tt] :=
    ReadsAt.type hm
  rw [Nat.add_assoc (i + d) 1 m] at htt
  exact ⟨_, .cast hcast ((hkind 0 (Nat.zero_le _)).trans hopen) htt hclose' ho⟩

/-- Behind a prefix stands its operand. -/
theorem reads_prefixed {m : Mark} (hk : (s.nth i).kind = .mark m)
    (hm : m ∈ [.add, .sub, .inc, .dec, .bang, .tilde])
    (ho : ReadsAt s (i + 1) [.expr .unary] k [t]) : ∃ u, ReadsAt s i [.expr .unary] k [u] := by
  have hsteps : ∃ r, unarySteps ⟨s, i⟩ =
      Step.start r :: [.take 1, .expr .unary] ++ [Step.finish] := by
    have hkind : Lookahead.kind ⟨s, i⟩ 0 = .mark m := hk
    simp only [List.mem_cons, List.not_mem_nil, or_false] at hm
    rcases hm with rfl | rfl | rfl | rfl | rfl | rfl <;>
      exact ⟨_, by simp only [unarySteps, hkind]; rfl⟩
  obtain ⟨r, hr⟩ := hsteps
  exact ⟨_, (ReadsAt.node ((ReadsAt.takeMark hk).cons ho)).expr fun _ => hr⟩

/-- An operand with a type in parentheses that stand last goes on with an operand behind it,
where that may be cast. -/
theorem reads_group (h : v.EndsInGroup) (hv : v.stream = e) (hin : e.LiesIn s d)
    (hf : (s.nth (e.visible.size + d)).kind.followsCast = true)
    (ho : ReadsAt s (e.visible.size + d) [.expr .unary] k [t]) :
    ∃ u, ReadsAt s (v.position + d) [.expr .unary] k [u] := by
  induction h with
  | @group v n opens type closes last =>
    obtain ⟨e', i⟩ := v
    obtain rfl : e' = e := hv
    have hlt : n < e'.visible.size - i := Lookahead.lt_left (by rw [closes]; exact nofun)
    have hle : e'.visible.size ≤ i + (n + 1) := (e'.kind_nth_eq_eof_iff _).1 last
    have hend : e'.visible.size + d = i + d + n + 1 := by omega
    rw [hend] at hf ho
    exact reads_cast hin opens type closes hf ho
  | @prefixed v m mark prefixes _ ih =>
    obtain ⟨u, hu⟩ := ih hv
    obtain ⟨e', i⟩ := v
    obtain rfl : e' = e := hv
    have hlt : 0 < e'.visible.size - i := Lookahead.lt_left (by rw [mark]; exact nofun)
    have hmark : (s.nth (i + d)).kind = .mark m := (hin.kind_at (by omega)).trans mark
    have hu' : ReadsAt s (i + d + 1) [.expr .unary] k [u] := by
      rwa [Nat.add_right_comm]
    exact reads_prefixed hmark prefixes hu'
  | @cast v n opens type ahead _ ih =>
    obtain ⟨u, hu⟩ := ih hv
    obtain ⟨e', i⟩ := v
    obtain rfl : e' = e := hv
    simp only [Lookahead.castAhead, type, Bool.and_eq_true, beq_iff_eq] at ahead
    obtain ⟨hclose, hfollow⟩ := ahead
    have hlt : n + 1 < e'.visible.size - i := Lookahead.lt_left fun heof => by
      rw [heof] at hfollow
      cases hfollow
    have hnext : Lookahead.kind ⟨s, i + d⟩ (n + 1) = Lookahead.kind ⟨e', i⟩ (n + 1) :=
      hin.kind_at (by omega)
    have hu' : ReadsAt s (i + d + n + 1) [.expr .unary] k [u] := by
      rwa [show i + d + n + 1 = i + (n + 1) + d by omega]
    exact reads_cast hin opens type hclose (by rwa [← hnext] at hfollow) hu'

end Groups

/-! ## Bound operands -/

section Binds

variable {p r : Parser} {s e : TokenStream} {te : Tree}

/-- A bound operand ends where it does by itself. Where the tokens behind the colon are read as
an operand by themselves, the whole query is read, and nothing is reported; what is bound are
these tokens, up to their places, and the word behind them goes on with the conditions. Where
a type in parentheses stands last in the operand, the word is what it casts, and the query is
not read to its end. -/
theorem binds_end_with_operands (hs : s.IsFilter e) (hspelled : s.Spelled ∧ e.Spelled)
    (hp : p.stream = e ∧ p.position = 0) (hr : r.stream = s ∧ r.position = 0)
    (he : p.ReadsAll (.expr .unary) te) :
    (¬p.lookahead.EndsInGroup →
      ∃ u, r.Accepts .query u ∧ TreesAlike (s.filterTree e te) u) ∧
    (p.lookahead.EndsInGroup → ∀ u, ¬r.Accepts .query u) := by
  obtain ⟨rfl, hp0⟩ := hp
  obtain ⟨hspelled, hspelled'⟩ := hspelled
  constructor
  · intro hends
    have hstop : (s.nth (p.stream.visible.size + 8)).stopsOperands = true := by
      rw [Token.stopsOperands, hs.name, hs.joins]
      decide
    have hoperand : ReadsAt s 8 [.expr .unary] (p.stream.visible.size + 8) [te] :=
      he.elsewhere rfl hp0 hspelled' hs.operand hstop fun _ => ⟨rfl, hends⟩
    have hwhole : ReadsAt s 0 [Entry.query.step] s.visible.size [s.filterTree p.stream te] :=
      ReadsAt.filtered hs hspelled hoperand
    exact hwhole.accepts hr
  · intro hends u hu
    have hfollow : (s.nth (p.stream.visible.size + 8)).kind.followsCast = true := by
      rw [hs.name]
      rfl
    have hname := ReadsAt.name hspelled hs.name (Token.word_of_isLabel hs.plain.field).1
    obtain ⟨t, ht⟩ := reads_group hends rfl hs.operand hfollow hname
    rw [show p.lookahead.position = 0 from hp0] at ht
    obtain ⟨q, hq⟩ := ReadsAt.cutShort hs hspelled ht
    have hshort : ReadsAt s 0 [Entry.query.step] (p.stream.visible.size + 9) [q] := hq
    exact hshort.not_accepts (by rw [hs.size]; omega) hr hu

theorem binds_end_with_operands_sum :
    ∃ e, TokenStream.ofString .folded "(a + b)" = .ok e ∧
    ∃ s, TokenStream.ofString .folded
      "SELECT Id FROM Account WHERE Size__c = :(a + b) AND Name = 'x'" = .ok s ∧
    ∃ te u, s.IsFilter e ∧ (s.Spelled ∧ e.Spelled) ∧ (ofStream e).ReadsAll (.expr .unary) te ∧
      ¬(ofStream e).lookahead.EndsInGroup ∧ (ofStream s).Accepts .query u ∧
      TreesAlike (s.filterTree e te) u := by
  have hread : ∃ e, TokenStream.ofString .folded "(a + b)" = .ok e ∧
      ∃ s, TokenStream.ofString .folded
        "SELECT Id FROM Account WHERE Size__c = :(a + b) AND Name = 'x'" = .ok s ∧
        s.IsFilter e ∧ Lookahead.kind ⟨e, 0⟩ 0 = .mark .lParen ∧
        Lookahead.typeEnd? ⟨e, 0⟩ 1 = some 2 ∧ Lookahead.kind ⟨e, 0⟩ 2 = .mark .add ∧
        ((ofStream e).parse .expression).2.toOption.bind Tree.rule? = some .primaryExpression ∧
        ((ofStream e).parse .expression).1.errorCount = 0 ∧
        ((ofStream e).parse .expression).1.position = e.visible.size := by
    decide +kernel
  obtain ⟨e, he, s, hs, hfilter, hopen, htype, hsum, hrule, hsilent, hwhole⟩ := hread
  obtain ⟨te, haccepts, hte⟩ := exists_accepts hrule hsilent hwhole
  have hreads := readsAll_unary haccepts ⟨_, _, hte, rfl, by decide⟩
  have hspelled : s.Spelled ∧ e.Spelled :=
    ⟨TokenStream.spelled_ofString hs, TokenStream.spelled_ofString he⟩
  have hends : ¬(ofStream e).lookahead.EndsInGroup := by
    rintro (⟨-, hend, hclose, -⟩ | ⟨m, hmark, hprefix, -⟩ | ⟨-, -, hcast, -⟩)
    · cases htype.symm.trans hend
      cases hsum.symm.trans hclose
    · cases hopen.symm.trans hmark
      simp at hprefix
    · have hnone : (ofStream e).lookahead.castAhead = false := by
        show Lookahead.castAhead ⟨e, 0⟩ = false
        simp [Lookahead.castAhead, htype, hsum]
      cases hnone.symm.trans hcast
  obtain ⟨u, hu, halike⟩ := (binds_end_with_operands (r := ofStream s) hfilter hspelled ⟨rfl, rfl⟩
    ⟨rfl, rfl⟩ hreads).1 hends
  exact ⟨e, he, s, hs, te, u, hfilter, hspelled, hreads, hends, hu, halike⟩

/-- A name in parentheses is a type as well, so what is bound goes on with the word behind it.
Nothing is reported, and the query ends in front of its last condition. -/
theorem bind_casts_next_word :
    ∃ e, TokenStream.ofString .folded "(a)" = .ok e ∧
    ∃ s, TokenStream.ofString .folded "SELECT f FROM o WHERE g = :(a) AND h = 1" = .ok s ∧
      s.IsFilter e ∧ (∃ te, (ofStream e).ReadsAll (.expr .unary) te) ∧
      ((ofStream s).parse .query).1.errorCount = 0 ∧
      (((ofStream s).parse .query).2.toOption.map fun u =>
        (u.findAll .boundExpression).map Tree.text) = some [":(a)AND"] ∧
      ¬∃ u, (ofStream s).Accepts .query u := by
  have hread : ∃ e, TokenStream.ofString .folded "(a)" = .ok e ∧
      ∃ s, TokenStream.ofString .folded "SELECT f FROM o WHERE g = :(a) AND h = 1" = .ok s ∧
        s.IsFilter e ∧
        ((ofStream e).parse .expression).2.toOption.bind Tree.rule? = some .primaryExpression ∧
        ((ofStream e).parse .expression).1.errorCount = 0 ∧
        ((ofStream e).parse .expression).1.position = e.visible.size ∧
        ((ofStream s).parse .query).1.errorCount = 0 ∧
        (((ofStream s).parse .query).2.toOption.map fun u =>
          (u.findAll .boundExpression).map Tree.text) = some [":(a)AND"] ∧
        ((ofStream s).parse .query).1.position ≠ s.visible.size := by
    decide +kernel
  obtain ⟨e, he, s, hs, hfilter, hrule, hsilent, hwhole, hsilent', hbound, hrest⟩ := hread
  obtain ⟨te, haccepts, hte⟩ := exists_accepts hrule hsilent hwhole
  refine ⟨e, he, s, hs, hfilter, ⟨te, readsAll_unary haccepts ⟨_, _, hte, rfl, by decide⟩⟩,
    hsilent', hbound, ?_⟩
  rintro ⟨u, hu⟩
  exact hrest hu.whole

end Binds

end Parser

end ApexSyntax
