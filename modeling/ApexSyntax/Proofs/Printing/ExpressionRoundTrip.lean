-- Printed expressions are read back. The induction is over the expression; it says of
-- the parser behind the expression that whatever waits there is what waits behind an
-- expression of that level, so operators of one level gather to the left.
import ApexSyntax.Proofs.Printing.Climbing

namespace ApexSyntax

/-! ## What may come behind an expression -/

/-- Behind an expression no arguments come, and nothing that continues an expression of
a stage or a later one. -/
def Stops (stage : Nat) (rest : List Piece) : Prop :=
  ∀ v : Lookahead, v.Before rest →
    v.kind 0 ≠ .mark .lParen ∧ ∀ j, v.continuation = some j → j < stage

section Stops

variable {k j : Nat} {rest : List Piece} {v : Lookahead} {a : Piece} {m : Mark}

theorem Stops.mono (h : Stops k rest) (hkj : k ≤ j) : Stops j rest :=
  fun v hv => ⟨(h v hv).1, fun i hi => Nat.lt_of_lt_of_le ((h v hv).2 i hi) hkj⟩

theorem stops_nil : Stops k [] := by
  intro v hv
  have hk : v.kind 0 = .eof := hv
  refine ⟨by rw [hk]; exact nofun, fun j hj => ?_⟩
  rw [Lookahead.continuation, hk] at hj
  cases hj

/-- A mark with what it continues, if anything. -/
theorem stops_mark (hm : m ≠ .lt ∧ m ≠ .gt ∧ m ≠ .lParen)
    (hj : ∀ j, m.stage? = some j → j < k) : Stops k (.mark m :: rest) := by
  intro v hv
  have hk : v.kind 0 = .mark m := hv.1.1
  refine ⟨by rw [hk]; exact fun h => hm.2.2 (Kind.mark.inj h), fun i hi => ?_⟩
  rw [Lookahead.continuation_of_mark hk hm.1 hm.2.1] at hi
  exact hj i hi

/-- Marks that continue nothing end every expression. -/
theorem stops_of_none (hm : m ≠ .lParen) (hs : m.stage? = none) : Stops k (.mark m :: rest) := by
  refine stops_mark ⟨?_, ?_, hm⟩ fun j hj => ?_
  · rintro rfl
    cases hs
  · rintro rfl
    cases hs
  · rw [hs] at hj
    cases hj

theorem Stops.kind_one (h : Stops k rest) (hv : v.Before (a :: rest)) :
    v.kind 1 ≠ .mark .lParen := by
  have hn := (h v.next hv.2).1
  rwa [Lookahead.kind, Lookahead.nth_next] at hn

/-- What continues an expression is no opening parenthesis. -/
theorem kind_ne_of_continuation (h : v.continuation = some j) : v.kind 0 ≠ .mark .lParen := by
  intro hk
  rw [Lookahead.continuation_of_mark hk (by decide) (by decide)] at h
  cases h

end Stops

/-! ## Reading expressions -/

open ApexSyntax.Parser

/-- Pieces are read as an expression of a level, and what comes behind may be read into
it up to a stage. From every stage up to the level, the parser comes to stand behind
the expression, with the parts waiting that may take it into a larger one. -/
def ReadAs (ps : List Piece) (o : Outline) (level reach : Nat) : Prop :=
  ∀ rest : List Piece, (ps ++ rest).IsChain Piece.Precedes → Stops reach rest →
    ∀ p : Parser, p.lookahead.Before (ps ++ rest) → ∃ q, p.Gives [o] rest q ∧
      ∀ k ≤ level, ∀ r, Runs (pending p.tree.mark k reach) q r → Runs [stage k] p r

section ReadAs

variable {ps qs rest : List Piece} {o : Outline} {os us : List Outline} {level reach j k : Nat}
  {rule : Rule} {ss : List Step}

/-- Where a stage is called for and nothing continues an expression of that stage, an
expression of its level is read as a whole. -/
theorem ReadAs.matches (h : ReadAs ps o level reach) (hk : k ≤ level) (hr : k ≤ reach)
    (hle : reach ≤ 15) (hc : (ps ++ rest).IsChain Piece.Precedes) (hs : Stops k rest) :
    Matches [stage k] ps [o] rest := by
  intro p hp
  obtain ⟨q, hg, hq⟩ := h rest hc (hs.mono hr) p hp
  exact ⟨q, hq k hk q (runs_pending hle (hs q.lookahead hg.before).2), hg⟩

/-- From a stage down to an operand that no operator stands in front of. -/
theorem runs_operand {p q : Parser} (hk : k ≤ 14)
    (hu : unarySteps p.lookahead = [.expr .operand])
    (h : Runs (.expr .primary :: pending p.tree.mark k 15) p q) : Runs [stage k] p q := by
  rcases Nat.lt_or_eq_of_le hk with hlt | rfl
  · have hsplit : pending p.tree.mark k 15 =
        .expr (.suffixes p.tree.mark) :: pending p.tree.mark k 13 :=
      pending_split (Nat.le_of_lt_succ hlt) (by decide)
    rw [hsplit] at h
    have h' : Runs ([Step.expr .primary, .expr (.suffixes p.tree.mark)] ++
      pending p.tree.mark k 13) p q := h
    obtain ⟨r, h1, h2⟩ := h'.split
    have hunary : Runs [.expr .unary] p r :=
      runs_part (by rw [perform, ExprPart.expand, hu]) (runs_part rfl h1)
    exact runs_down (Nat.le_of_lt_succ hlt) (Nat.le_refl 13) (hunary.append h2)
  · exact runs_part rfl h

/-- An operand is read by the steps of a primary expression. -/
theorem readAs_primary (ss : List Step)
    (h : ∀ rest, (ps ++ rest).IsChain Piece.Precedes → Stops 15 rest →
      Matches ss ps os rest ∧ ∀ v : Lookahead, v.Before (ps ++ rest) →
        primarySteps v = ss ∧ unarySteps v = [.expr .operand]) :
    ReadAs ps (.node .primaryExpression os) 14 15 := by
  intro rest hc hs p hp
  obtain ⟨hm, hv⟩ := h rest hc hs
  have hprimary : Matches [.expr .primary] ps [.node .primaryExpression os] rest := by
    refine hm.node.expr fun v mark hb => ?_
    rw [ExprPart.expand, (hv v hb).1]
  obtain ⟨q, hq, hg⟩ := hprimary p hp
  refine ⟨q, hg, fun k hk r hr => ?_⟩
  exact runs_operand hk (hv p.lookahead hp).2 (hq.append hr)

/-- An expression behind which a part waits that takes it into a larger one. -/
theorem readAs_behind {l n : Nat} (part : Nat → ExprPart) (ss : List Step)
    (h : ReadAs ps o l n) (hjl : j ≤ l) (hjn : j < n) (hn : n ≤ 15) (hjr : j ≤ reach)
    (hpart : ∀ mark, waiting mark j = [.expr (part mark)])
    (hsteps : ∀ rest, (qs ++ rest).IsChain Piece.Precedes → Stops reach rest →
      Matches ss qs us rest ∧ ∀ v : Lookahead, v.Before (qs ++ rest) →
        v.continuation = some j ∧ ∀ mark m, (part mark).expand v m =
          .wrap mark rule :: ss ++ [Step.finish] ++ pending mark j reach) :
    ReadAs (ps ++ qs) (.node rule (o :: us)) j reach := by
  intro rest hc hs p hp
  rw [List.append_assoc] at hc hp
  obtain ⟨hm, hv⟩ := hsteps rest hc.right_of_append hs
  have hstops : Stops n (qs ++ rest) := by
    intro v hb
    refine ⟨kind_ne_of_continuation (hv v hb).1, fun i hi => ?_⟩
    rw [(hv v hb).1] at hi
    cases hi
    exact hjn
  obtain ⟨q, hg, hq⟩ := h (qs ++ rest) hc hstops p hp
  obtain ⟨hcont, hexpand⟩ := hv q.lookahead hg.before
  obtain ⟨r, hr, hgr⟩ := hm (q.build (·.wrap p.tree.mark rule)) hg.before
  refine ⟨r.build (·.finish), hg.wrap hgr, fun k hk s hrun => hq k (Nat.le_trans hk hjl) s ?_⟩
  have hwrap : Runs (.wrap p.tree.mark rule :: ss ++ [Step.finish]) q (r.build (·.finish)) :=
    (Leads.append (runs_one rfl) hr).append (runs_one rfl)
  have hidle : Runs (pending p.tree.mark (j + 1) n) q q := by
    refine runs_pending hn fun i hi => ?_
    rw [hcont] at hi
    cases hi
    exact Nat.lt_succ_self j
  rw [pending_split hk hjr] at hrun
  obtain ⟨s', hagain, hrest⟩ := hrun.split
  have hstep : Runs [.expr (part p.tree.mark)] q s' := by
    refine runs_part ?_ (hwrap.append hagain)
    rw [perform, hexpand]
  rw [pending_split (Nat.le_succ_of_le hk) hjn, pending_split hk (Nat.le_succ j), pending_succ,
    hpart]
  exact hidle.append (hstep.append hrest)

end ReadAs

/-! ## Operands -/

section Operands

variable {ps rest : List Piece} {o : Outline} {level reach : Nat}

theorem readAs_name (n : Name) :
    ReadAs [.named n.word] (.node .primaryExpression [.token .identifier n.word]) 14 15 := by
  refine readAs_primary [.take 1] fun rest hc hs => ⟨.take, fun v hv => ?_⟩
  have hv' : v.Before (.named n.word :: rest) := hv
  have hclass := (untyped_of_before hv hc).classReferenceAhead_eq
  have hk : v.kind 0 = .identifier := hv.1.1
  have ht : v.isTypeName 0 = true := hv.isTypeName_eq 0
  constructor
  · simp [primarySteps, Lookahead.atKeyword, Lookahead.atMark, hk, ht, hclass, hs.kind_one hv',
      Kind.isLiteral]
  · simp [unarySteps, hk]

theorem steps_of_isLiteral {v : Lookahead} (h : (v.kind 0).isLiteral = true) :
    primarySteps v = [.expr .literal] ∧ unarySteps v = [.expr .operand] := by
  have hl := h
  unfold Kind.isLiteral at h
  split at h
  case h_5 => cases h
  all_goals
    rename_i hk
    exact ⟨by simp [primarySteps, Lookahead.atKeyword, hk, Kind.isLiteral],
      by simp [unarySteps, hk]⟩

theorem readAs_constant (c : Constant) :
    ReadAs [⟨c.kind, c.word, false⟩]
      (.node .primaryExpression [.node .literal [.token c.kind c.word]]) 14 15 := by
  have hliteral : ∀ {v : Lookahead} {rest : List Piece},
      v.Before ([⟨c.kind, c.word, false⟩] ++ rest) → (v.kind 0).isLiteral = true := by
    intro v rest hv
    rw [hv.1.1]
    exact c.isLiteral
  refine readAs_primary [.expr .literal] fun rest hc hs => ⟨?_, fun v hv => ?_⟩
  · refine Matches.take.node.expr fun v mark hv => ?_
    rw [ExprPart.expand, if_pos (hliteral hv)]
    rfl
  · exact steps_of_isLiteral (hliteral hv)

theorem readAs_parenthesized (h : ReadAs ps o level reach) (hr : reach ≤ 15) (hp : NoPath ps) :
    ReadAs (.mark .lParen :: ps ++ [Piece.mark .rParen])
      (.node .primaryExpression [.mark .lParen, o, .mark .rParen]) 14 15 := by
  refine readAs_primary [.take 1, .expr .expression, .expect (.mark .rParen)]
    fun rest hc hs => ⟨?_, fun v hv => ?_⟩
  · have hc' : (ps ++ (.mark .rParen :: rest)).IsChain Piece.Precedes := by
      simpa using hc.tail
    have hinner := h.matches (Nat.zero_le _) (Nat.zero_le _) hr hc'
      (stops_of_none (by decide) rfl)
    exact Matches.take.cons (hinner.cons (Matches.mark .rParen))
  · have hk : v.kind 0 = .mark .lParen := hv.1.1
    have hcast : v.castAhead = false := by
      refine castAhead_eq hv (untyped_of_before hv hc) ?_
      simpa using hp (.mark .rParen :: rest)
    constructor
    · simp [primarySteps, Lookahead.atKeyword, Lookahead.atMark, hk, Kind.isLiteral]
    · simp [unarySteps, hk, hcast]

/-! ## Calls -/

/-- Every argument is read as an expression. -/
def ReadAll (es : List Expr) : Prop :=
  ∀ e ∈ es, ReadAs e.pieces e.outline e.level e.reach

theorem Expr.reach_le (e : Expr) : e.reach ≤ 15 := by
  have h := e.reach_cases
  omega

theorem stops_more (es : List Expr) :
    Stops 0 (Expr.morePieces es ++ .mark .rParen :: rest) := by
  cases es with
  | nil => exact stops_of_none (by decide) rfl
  | cons e es => exact stops_of_none (by decide) rfl

theorem matches_more {es : List Expr} (h : ReadAll es)
    (hc : (Expr.morePieces es ++ .mark .rParen :: rest).IsChain Piece.Precedes) :
    Matches [.expr .moreExpressions] (Expr.morePieces es) (Expr.moreOutlines es)
      (.mark .rParen :: rest) := by
  induction es with
  | nil =>
    refine Matches.nothing.expr fun v mark hv => ?_
    have hk : v.kind 0 = .mark .rParen := hv.1.1
    simp [ExprPart.expand, Lookahead.atMark, hk]
  | cons e es ih =>
    obtain ⟨he, hes⟩ := List.forall_mem_cons.1 h
    have hc' : (e.pieces ++ (Expr.morePieces es ++ .mark .rParen :: rest)).IsChain
        Piece.Precedes := by
      simpa [Expr.morePieces] using hc.tail
    have hinner := he.matches (Nat.zero_le _) (Nat.zero_le _) e.reach_le hc' (stops_more es)
    have hsteps := (Matches.take (a := .mark .comma)).cons
      (hinner.cons (ih hes hc'.right_of_append))
    refine hsteps.expr fun v mark hv => ?_
    have hk : v.kind 0 = .mark .comma := hv.1.1
    simp [ExprPart.expand, Lookahead.atMark, hk, stage]

theorem matches_arguments {es : List Expr} (h : ReadAll es)
    (hc : (Expr.listPieces es ++ .mark .rParen :: rest).IsChain Piece.Precedes) :
    Matches [.expr .argumentList] (Expr.listPieces es) (Expr.listOutlines es)
      (.mark .rParen :: rest) := by
  cases es with
  | nil =>
    refine Matches.nothing.expr fun v mark hv => ?_
    have hk : v.kind 0 = .mark .rParen := hv.1.1
    simp [ExprPart.expand, Lookahead.atMark, hk]
  | cons e es =>
    obtain ⟨he, hes⟩ := List.forall_mem_cons.1 h
    have hc' : (e.pieces ++ (Expr.morePieces es ++ .mark .rParen :: rest)).IsChain
        Piece.Precedes := by
      simpa [Expr.listPieces] using hc
    have hinner := he.matches (Nat.zero_le _) (Nat.zero_le _) e.reach_le hc' (stops_more es)
    have hlist : Matches [.expr .list] _ _ _ :=
      (hinner.cons (matches_more hes hc'.right_of_append)).expr fun v mark hv => rfl
    refine hlist.expr fun v mark hv => ?_
    have hk : v.kind 0 ≠ .mark .rParen := by
      rw [hv.kind_eq]
      exact (e.standalone.opens.append.append).kind_ne rfl
    simp [ExprPart.expand, Lookahead.atMark, hk]

/-- A call is read from its name to the closing parenthesis. -/
theorem matches_call {es : List Expr} (f : Name) (h : ReadAll es)
    (hc : (Expr.listPieces es ++ .mark .rParen :: rest).IsChain Piece.Precedes) :
    Matches callSteps (.named f.word :: .mark .lParen :: Expr.listPieces es ++ [Piece.mark .rParen])
      [Expr.callOutline f (Expr.listOutlines es)] rest := by
  have harguments := (Matches.mark .lParen).cons
    ((matches_arguments h hc).cons (Matches.mark .rParen))
  have hpart : Matches [.expr .arguments] _ _ _ := harguments.node.expr fun v mark hv => rfl
  exact (Matches.take.cons hpart).node

theorem readAs_call {es : List Expr} (f : Name) (h : ReadAll es) :
    ReadAs (.named f.word :: .mark .lParen :: Expr.listPieces es ++ [Piece.mark .rParen])
      (.node .primaryExpression [Expr.callOutline f (Expr.listOutlines es)]) 14 15 := by
  refine readAs_primary callSteps fun rest hc hs => ⟨?_, fun v hv => ?_⟩
  · refine matches_call f h ?_
    simpa using hc.tail.tail
  · have hk : v.kind 0 = .identifier := hv.kind_eq 0
    have hk' : v.kind 1 = .mark .lParen := hv.kind_eq 1
    have ht : v.isTypeName 0 = true := hv.isTypeName_eq 0
    constructor
    · simp [primarySteps, Lookahead.atKeyword, Lookahead.atMark, hk, hk', ht, Kind.isLiteral]
    · simp [unarySteps, hk]

end Operands

/-! ## Operands of larger expressions -/

/-- Pieces are read where expressions of a level are called for, and what continues
these is read into a larger expression. -/
def ReadAt (need : Nat) (ps : List Piece) (o : Outline) : Prop :=
  ∃ level reach, need ≤ level ∧ need ≤ reach ∧
    (need ≠ 0 → need ≠ 1 → need ≠ 13 → need < reach) ∧ reach ≤ 15 ∧ ReadAs ps o level reach

section Larger

variable {ps qs rest : List Piece} {o : Outline} {us : List Outline} {need : Nat} {rule : Rule}
  {e : Expr}

theorem ReadAs.enclose (h : ReadAs e.pieces e.outline e.level e.reach) (hn : need ≤ 14) :
    ReadAt need (Expr.enclose need e.level e.pieces)
      (Expr.encloseOutline need e.level e.outline) := by
  have hreach := e.reach_cases
  unfold Expr.enclose Expr.encloseOutline
  split
  · rename_i hlt
    have hp := e.pathOrNot.2 (Nat.lt_of_lt_of_le hlt hn)
    refine ⟨14, 15, hn, Nat.le_succ_of_le hn, fun _ _ _ => Nat.lt_succ_of_le hn, Nat.le_refl 15, ?_⟩
    exact readAs_parenthesized h e.reach_le hp
  · exact ⟨e.level, e.reach, by omega, by omega, by omega, by omega, h⟩

theorem ReadAt.matches (h : ReadAt need ps o) (hc : (ps ++ rest).IsChain Piece.Precedes)
    (hs : Stops need rest) : Matches [stage need] ps [o] rest := by
  obtain ⟨level, reach, hl, hr, -, hle, h⟩ := h
  exact h.matches hl hr hle hc hs

/-- An operand with something behind it. -/
theorem readAs_suffix (ss : List Step) (h : ReadAt 14 ps o)
    (hsteps : ∀ rest, (qs ++ rest).IsChain Piece.Precedes → Stops 15 rest →
      Matches ss qs us rest ∧ ∀ v : Lookahead, v.Before (qs ++ rest) →
        v.continuation = some 14 ∧ ∀ mark m, (ExprPart.suffixes mark).expand v m =
          .wrap mark rule :: ss ++ [Step.finish] ++ [Step.expr (.suffixes mark)]) :
    ReadAs (ps ++ qs) (.node rule (o :: us)) 14 15 := by
  obtain ⟨level, reach, hl, hr, hlt, hle, h⟩ := h
  exact readAs_behind .suffixes ss h hl (hlt (by decide) (by decide) (by decide)) hle
    (by decide) (fun _ => rfl) hsteps

theorem continuation_access {v : Lookahead} (a : Access) (hk : v.kind 0 = .mark a.mark) :
    v.continuation = some 14 := by
  cases a <;> exact Lookahead.continuation_of_mark hk (by decide) (by decide)

/-- In front of a dot the suffix is a member. -/
theorem suffixes_access {v : Lookahead} (a : Access) (hk : v.kind 0 = .mark a.mark)
    (mark m : Nat) : (ExprPart.suffixes mark).expand v m =
      Step.wrap mark .dotExpression :: [.take 1, .expr .member] ++ [Step.finish] ++
        [Step.expr (.suffixes mark)] := by
  cases a <;> simp [ExprPart.expand, Lookahead.atMark, hk, Access.mark]

theorem readAs_member (a : Access) (n : Name) (h : ReadAt 14 ps o) :
    ReadAs (ps ++ [Piece.mark a.mark, .named n.word])
      (.node .dotExpression [o, .mark a.mark, .token .identifier n.word]) 14 15 := by
  refine readAs_suffix [.take 1, .expr .member] h fun rest hc hs => ⟨?_, fun v hv => ?_⟩
  · have hword : Expected.word.accepts (Piece.named n.word).token = true :=
      bne_iff_ne.2 n.word_ne
    have hmember : Matches [.expr .member] [.named n.word] [.token .identifier n.word] rest := by
      refine (Matches.expect hword).expr fun v mark hv => ?_
      simp [ExprPart.expand, hs.kind_one hv]
    exact (Matches.take (a := .mark a.mark)).cons hmember
  · exact ⟨continuation_access a hv.1.1, suffixes_access a hv.1.1⟩

theorem readAs_invoke (a : Access) (f : Name) {args : List Expr} (h : ReadAt 14 ps o)
    (hargs : ReadAll args) :
    ReadAs (ps ++ (.mark a.mark :: .named f.word :: .mark .lParen ::
        Expr.listPieces args ++ [Piece.mark .rParen]))
      (.node .dotExpression
        [o, .mark a.mark, Expr.callOutline f (Expr.listOutlines args)]) 14 15 := by
  refine readAs_suffix [.take 1, .expr .member] h fun rest hc hs => ⟨?_, fun v hv => ?_⟩
  · have hc' : (Expr.listPieces args ++ .mark .rParen :: rest).IsChain Piece.Precedes := by
      simpa using hc.tail.tail.tail
    have hmember : Matches [.expr .member]
        (.named f.word :: .mark .lParen :: Expr.listPieces args ++ [Piece.mark .rParen])
        [Expr.callOutline f (Expr.listOutlines args)] rest := by
      refine (matches_call f hargs hc').expr fun v mark hv => ?_
      have hword : v.isWord 0 = true := (hv.isWord_eq 0).trans (bne_iff_ne.2 f.word_ne)
      have hk : v.kind 1 = .mark .lParen := hv.kind_eq 1
      simp [ExprPart.expand, hword, hk]
    exact (Matches.take (a := .mark a.mark)).cons hmember
  · exact ⟨continuation_access a hv.1.1, suffixes_access a hv.1.1⟩

theorem readAs_index (h : ReadAt 14 ps o) (hplace : ReadAs e.pieces e.outline e.level e.reach) :
    ReadAs (ps ++ (.mark .lBrack :: e.pieces ++ [Piece.mark .rBrack]))
      (.node .arrayExpression [o, .mark .lBrack, e.outline, .mark .rBrack]) 14 15 := by
  refine readAs_suffix [.take 1, .expr .expression, .expect (.mark .rBrack)] h
    fun rest hc hs => ⟨?_, fun v hv => ?_⟩
  · have hc' : (e.pieces ++ .mark .rBrack :: rest).IsChain Piece.Precedes := by
      simpa using hc.tail
    have hinner := hplace.matches (Nat.zero_le _) (Nat.zero_le _) e.reach_le hc'
      (stops_of_none (by decide) rfl)
    exact (Matches.take (a := .mark .lBrack)).cons (hinner.cons (Matches.mark .rBrack))
  · have hk : v.kind 0 = .mark .lBrack := hv.1.1
    refine ⟨Lookahead.continuation_of_mark hk (by decide) (by decide), fun mark m => ?_⟩
    simp [ExprPart.expand, Lookahead.atMark, hk]

theorem readAs_stepped (op : StepOp) (h : ReadAt 14 ps o) :
    ReadAs (ps ++ [Piece.mark op.mark]) (.node .postOpExpression [o, .mark op.mark]) 14 15 := by
  refine readAs_suffix [.take 1] h fun rest hc hs => ⟨.take, fun v hv => ?_⟩
  have hk : v.kind 0 = .mark op.mark := hv.1.1
  cases op with
  | inc | dec =>
    refine ⟨Lookahead.continuation_of_mark hk (by decide) (by decide), fun mark m => ?_⟩
    simp [ExprPart.expand, Lookahead.atMark, hk, StepOp.mark]

/-! ## Operators -/

theorem readAs_unary (op : UnaryOp) (h : ReadAt 13 ps o) :
    ReadAs (.mark op.mark :: ps) (.node op.rule [.mark op.mark, o]) 13 13 := by
  intro rest hc hs p hp
  have hm := (Matches.take (a := .mark op.mark)).cons (h.matches hc.tail hs)
  have hnode : Matches [.expr .unary] (.mark op.mark :: ps) [.node op.rule [.mark op.mark, o]]
      rest := by
    refine hm.node.expr fun v mark hv => ?_
    have hk : v.kind 0 = .mark op.mark := hv.1.1
    cases op <;> simp [ExprPart.expand, unarySteps, hk, UnaryOp.mark, UnaryOp.rule, stage,
      binaryLevels]
  obtain ⟨q, hq, hg⟩ := hnode p hp
  exact ⟨q, hg, fun k hk r hr => runs_down hk (Nat.le_refl 13) (hq.append hr)⟩

/-- The tokens of an operator are taken. -/
theorem matches_takeMany (ps : List Piece) :
    Matches [.take ps.length] ps (ps.map Piece.outline) rest := by
  intro p hp
  refine ⟨p.takeMany ps.length, runs_one rfl, ?_⟩
  induction ps generalizing p with
  | nil => exact .refl hp
  | cons a ps ih =>
    have htake : p.Gives [a.outline] (ps ++ rest) p.take := .take hp
    exact htake.trans (ih p.take htake.before)

theorem readAs_binary (op : BinaryOp) {o' : Outline} (h : ReadAt (op.level + 2) ps o)
    (h' : ReadAt (op.level + 3) qs o') (ho : Opens qs) :
    ReadAs (ps ++ (op.pieces ++ qs)) (.node op.rule (o :: op.pieces.map Piece.outline ++ [o']))
      (op.level + 2) (op.level + 3) := by
  have hlt := op.level_lt
  obtain ⟨level, reach, hl, hr, hstrict, hle, h⟩ := h
  have hreach : op.level + 2 < reach := by
    by_cases h13 : op.level + 2 = 13
    · omega
    · exact hstrict (by omega) (by omega) h13
  have hwaiting : ∀ mark, waiting mark (op.level + 2) = [.expr (.operators op.level mark)] :=
    fun mark => waiting_binary hlt
  refine readAs_behind (.operators op.level)
    [.take op.pieces.length, .expr (.binary (op.level + 1))] h hl hreach hle (Nat.le_succ _)
    hwaiting fun rest hc hs => ⟨?_, fun v hv => ?_⟩
  · rw [List.append_assoc] at hc
    have hright : Matches [.expr (.binary (op.level + 1))] qs [o'] rest := by
      intro p hp
      obtain ⟨q, hq, hg⟩ := h'.matches hc.right_of_append hs p hp
      exact ⟨q, runs_binary hlt hq, hg⟩
    exact (matches_takeMany op.pieces).cons hright
  · rw [List.append_assoc] at hv
    have hop := operatorAhead_of_before op hv ho.append
    refine ⟨Lookahead.continuation_of_operatorAhead hop, fun mark m => ?_⟩
    rw [pending_succ, hwaiting, ExprPart.expand, hop]
    simp only [op.rightOperand_eq]
    rfl

theorem readAs_cond {yes : Expr} {ps' : List Piece} {o' : Outline} (h : ReadAt 2 ps o)
    (hyes : ReadAs yes.pieces yes.outline yes.level yes.reach) (h' : ReadAt 1 ps' o') :
    ReadAs (ps ++ (.mark .question :: yes.pieces ++ (.mark .colon :: ps')))
      (.node .condExpression [o, .mark .question, yes.outline, .mark .colon, o']) 1 1 := by
  obtain ⟨level, reach, hl, hr, -, hle, h⟩ := h
  refine readAs_behind .alternatives
    [.take 1, .expr .expression, .expect (.mark .colon), .expr .conditional] h
    (Nat.le_of_succ_le hl) hr hle (Nat.le_refl 1) (fun _ => rfl)
    fun rest hc hs => ⟨?_, fun v hv => ?_⟩
  · have hc' : (yes.pieces ++ (.mark .colon :: (ps' ++ rest))).IsChain Piece.Precedes := by
      simpa using hc.tail
    have hinner := hyes.matches (Nat.zero_le _) (Nat.zero_le _) yes.reach_le hc'
      (stops_of_none (by decide) rfl)
    have hno := h'.matches hc'.right_of_append.tail hs
    exact (Matches.take (a := .mark .question)).cons
      (hinner.cons ((Matches.mark .colon).cons hno))
  · have hk : v.kind 0 = .mark .question := hv.1.1
    refine ⟨Lookahead.continuation_of_mark hk (by decide) (by decide), fun mark m => ?_⟩
    simp [ExprPart.expand, Lookahead.atMark, hk]

theorem readAs_assign (op : AssignOp) {value : Expr} (h : ReadAt 1 ps o)
    (hvalue : ReadAs value.pieces value.outline value.level value.reach) :
    ReadAs (ps ++ (.mark op.mark :: value.pieces))
      (.node .assignExpression [o, .mark op.mark, value.outline]) 0 0 := by
  obtain ⟨level, reach, hl, hr, -, hle, h⟩ := h
  refine readAs_behind .assignment [.take 1, .expr .expression] h (Nat.zero_le _) hr hle
    (Nat.le_refl 0) (fun _ => rfl) fun rest hc hs => ⟨?_, fun v hv => ?_⟩
  · have hinner := hvalue.matches (Nat.zero_le _) (Nat.zero_le _) value.reach_le hc.tail hs
    exact (Matches.take (a := .mark op.mark)).cons hinner
  · have hk : v.kind 0 = .mark op.mark := hv.1.1
    have ha : (v.kind 0).isAssignment = true := by rw [hk, op.isAssignment]
    refine ⟨Lookahead.continuation_of_isAssignment ha, fun mark m => ?_⟩
    simp [ExprPart.expand, ha]

end Larger

/-! ## All expressions -/

/-- Every printed expression is read as an expression of its level. -/
theorem Expr.readAs (e : Expr) : ReadAs e.pieces e.outline e.level e.reach := by
  induction e with
  | name n => exact readAs_name n
  | constant c => exact readAs_constant c
  | call f args ih => exact readAs_call f ih
  | member base a n ih => exact readAs_member a n (ih.enclose (by decide))
  | invoke base a f args ih ihs => exact readAs_invoke a f (ih.enclose (by decide)) ihs
  | index base place ih ihp => exact readAs_index (ih.enclose (by decide)) ihp
  | stepped base op ih => exact readAs_stepped op (ih.enclose (by decide))
  | unary op operand ih => exact readAs_unary op (ih.enclose (by decide))
  | binary op left right ihl ihr =>
    have hop := op.level_lt
    exact readAs_binary op (ihl.enclose (by omega)) (ihr.enclose (by omega))
      right.standalone.enclose.opens
  | cond test yes no iht ihy ihn =>
    exact readAs_cond (iht.enclose (by decide)) ihy (ihn.enclose (by decide))
  | assign op target value iht ihv => exact readAs_assign op (iht.enclose (by decide)) ihv

/-- Printed expressions are read back: a call reads the tokens of an expression up to
the end of the text, reports nothing, and returns its tree. -/
theorem Parser.expression_readsBack (e : Expr) (p : Parser)
    (hp : p.lookahead.Before e.pieces) : p.ReadsBack .expression e.outline := by
  have hne : e.pieces ≠ [] := by
    obtain ⟨a, ps, he, _⟩ := e.standalone.opens
    rw [he]
    exact List.cons_ne_nil a ps
  have hc : (e.pieces ++ []).IsChain Piece.Precedes := by
    rw [List.append_nil]
    exact e.standalone.closed.1
  exact readsBack_of_matches
    (e.readAs.matches (Nat.zero_le _) (Nat.zero_le _) e.reach_le hc stops_nil) hne hp

/-- Operators of many levels, with parentheses around the one looser operand. -/
def Expr.mixed : Expr :=
  .assign ⟨.assign, rfl⟩ (.name ⟨"x", by decide⟩) (.cond
    (.binary .eq
      (.binary .shiftRight
        (.binary .mul (.binary .coalesce (.name ⟨"a", by decide⟩) (.name ⟨"b", by decide⟩))
          (.unary .minus (.index (.name ⟨"c", by decide⟩)
            (.constant ⟨.literal .integer, "", rfl⟩))))
        (.stepped (.member
          (.call ⟨"f", by decide⟩ [.name ⟨"y", by decide⟩, .name ⟨"z", by decide⟩])
          .safe ⟨"g", by decide⟩) .inc))
      (.name ⟨"d", by decide⟩))
    (.name ⟨"p", by decide⟩) (.name ⟨"q", by decide⟩))

theorem Parser.expression_readsBack_mixed :
    ∃ s, TokenStream.ofString .folded "x = (a ?? b) * -c[0] >> f(y, z)?.g++ == d ? p : q" = .ok s ∧
      (ofStream s).lookahead.Before Expr.mixed.pieces ∧
      (ofStream s).ReadsBack .expression Expr.mixed.outline := by
  obtain ⟨s, hs⟩ := TokenStream.ofString_ok .folded
    "x = (a ?? b) * -c[0] >> f(y, z)?.g++ == d ? p : q"
  have hbefore : (TokenStream.ofString .folded
      "x = (a ?? b) * -c[0] >> f(y, z)?.g++ == d ? p : q").toOption.map (fun s =>
        decide ((ofStream s).lookahead.Before Expr.mixed.pieces)) = some true := by
    decide +kernel
  rw [hs] at hbefore
  have hp := of_decide_eq_true (Option.some.inj hbefore)
  exact ⟨s, hs, hp, expression_readsBack Expr.mixed (ofStream s) hp⟩

end ApexSyntax
