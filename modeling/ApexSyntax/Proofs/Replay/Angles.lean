-- Where an operator is looked for in a calm run, two angles of one kind that stand side by
-- side touch. Apart, the first would be a comparison, and no operand starts with the second.
import ApexSyntax.Proofs.Replay.Windows

namespace ApexSyntax

/-- Two angles of one kind that stand side by side touch. -/
def Lookahead.Firm (v : Lookahead) : Prop :=
  ∀ m, m = .lt ∨ m = .gt → v.kind 0 = .mark m → v.kind 1 = .mark m → v.touches 0 = true

theorem Lookahead.firm_of_doubled {v : Lookahead} {m : Mark} (h : v.doubled m = true) :
    v.Firm := by
  intro m' _ h0 _
  simp only [doubled, atMark, Bool.and_eq_true] at h
  exact h.2

theorem Lookahead.doubled_next (s : TokenStream) (i : Nat) (m : Mark) :
    doubled ⟨s, i + 1⟩ m =
      (kind ⟨s, i⟩ 1 == .mark m && kind ⟨s, i⟩ 2 == .mark m && touches ⟨s, i⟩ 1) := by
  simp only [doubled, atMark, kind, nth, touches, Nat.add_assoc, Nat.reduceAdd]

/-- The step reads shifts, up to an operator of a looser level. -/
def Step.shifts : Step → Bool
  | expr (.binary level) | expr (.operators level _) => level == 8
  | expectThen _ next => next.shifts
  | _ => false

/-! ## Parts without shifts -/

section Parts

variable {v : Lookahead}

theorem TypePart.all_shifts (p : TypePart) : (p.expand v).all (!·.shifts) = true := by
  cases p <;> simp only [expand] <;> repeat' split
  all_goals rfl

theorem QueryPart.all_shifts (p : QueryPart) : (p.expand v).all (!·.shifts) = true := by
  cases p <;> simp only [expand, clause, selectEntrySteps, valueSteps] <;> repeat' split
  all_goals rfl

theorem StmtPart.all_shifts (p : StmtPart) : (p.expand v).all (!·.shifts) = true := by
  cases p <;> simp only [expand, untilBrace, statementSteps, dmlSteps, loopControlSteps,
    whenValueSteps] <;> repeat' split
  all_goals rfl

theorem DeclPart.all_shifts (p : DeclPart) : (p.expand v).all (!·.shifts) = true := by
  cases p <;> simp only [expand, untilBrace, memberSteps, classMemberSteps,
    annotationValueSteps] <;> repeat' split
  all_goals rfl

/-- Only comparisons have shifts as their operands. -/
theorem ExprPart.all_shifts (p : ExprPart) (mark : Nat)
    (h : ∀ level, level = 7 ∨ level = 8 → p ≠ .binary level ∧ ∀ m, p ≠ .operators level m) :
    (p.expand v mark).all (!·.shifts) = true := by
  cases p with
  | binary level =>
    have h7 : level ≠ 7 := fun hl => (h level (.inl hl)).1 rfl
    have h8 : level ≠ 8 := fun hl => (h level (.inr hl)).1 rfl
    simp only [expand]
    split
    · simp [Step.shifts, h7, h8]
    · rfl
  | operators level m =>
    have h7 : level ≠ 7 := fun hl => (h level (.inl hl)).2 m rfl
    have h8 : level ≠ 8 := fun hl => (h level (.inr hl)).2 m rfl
    simp only [expand, rightOperand]
    split
    · split <;> simp [Step.shifts, h7, h8]
    · rfl
  | primary =>
    exact primarySteps_cases (P := fun ss =>
      (Step.start .primaryExpression :: ss ++ [Step.finish]).all (!·.shifts) = true) v
      rfl rfl rfl rfl rfl rfl rfl rfl rfl
  | _ =>
    clear h
    simp only [expand, unarySteps, callSteps, initializerSteps]
    repeat' split
    all_goals rfl

/-- An operator, its right operand and more operators, or nothing. -/
theorem operators_cases (v : Lookahead) (level m mark : Nat) :
    (ExprPart.operators level m).expand v mark = [] ∨
      ∃ r n o, (o = .typ .type ∨ o = .expr (.binary (level + 1))) ∧
        (ExprPart.operators level m).expand v mark =
          [.wrap m r, .take n, o, .finish, .expr (.operators level m)] := by
  simp only [ExprPart.expand]
  split
  · rename_i r n _
    refine .inr ⟨r, n, rightOperand r level, ?_, rfl⟩
    unfold rightOperand
    split
    · exact .inl rfl
    · exact .inr rfl
  · exact .inl rfl

end Parts

namespace Parser

/-! ## Operands behind angles -/

section Operands

variable {p q : Parser} {m : Mark}

/-- No operand starts with an angle. -/
theorem not_operand_of_angle (hm : m = .lt ∨ m = .gt) (hk : p.lookahead.kind 0 = .mark m)
    (h : Leads Tame [.expr .unary] p q) : False := by
  have hn : p.lookahead.isTypeName 0 = false := by
    rw [Lookahead.kind] at hk
    rcases hm with rfl | rfl <;>
      simp [Lookahead.isTypeName, Token.isTypeName, Token.isIdentifier, Kind.isSoftKeyword, hk]
  have hunary : unarySteps p.lookahead = [.expr .operand] := by
    rcases hm with rfl | rfl <;> simp [unarySteps, hk]
  have hprimary : primarySteps p.lookahead = [.complain .noAlternative] := by
    rcases hm with rfl | rfl <;>
      simp [primarySteps, Lookahead.atKeyword, Lookahead.atMark, Kind.isLiteral, hk, hn]
  obtain ⟨p1, more, hp, h⟩ := h.inv
  rw [perform, ExprPart.expand, hunary] at hp
  cases hp
  obtain ⟨p2, more, hp, h⟩ := h.inv
  cases hp
  obtain ⟨p3, h, _⟩ := h.uncons
  obtain ⟨p4, more, hp, h⟩ := h.inv
  rw [perform, ExprPart.expand, hprimary] at hp
  cases hp
  exact not_calm_of_refuses h rfl

theorem not_binary_of_angle (hm : m = .lt ∨ m = .gt) (hk : p.lookahead.kind 0 = .mark m)
    {level : Nat} (h : Leads Tame [.expr (.binary level)] p q) : False := by
  induction hl : binaryLevels - level generalizing level q with
  | zero =>
    obtain ⟨p', more, hp, h⟩ := h.inv
    rw [perform, ExprPart.expand, if_neg (by omega)] at hp
    cases hp
    exact not_operand_of_angle hm hk h
  | succ n ih =>
    obtain ⟨p', more, hp, h⟩ := h.inv
    rw [perform, ExprPart.expand, if_pos (by omega)] at hp
    cases hp
    obtain ⟨p1, h1, _⟩ := h.uncons
    exact ih h1 (by omega)

theorem kind_of_take {n : Nat} (h : Leads Tame [.take n] p q) :
    q.lookahead.kind 0 = p.lookahead.kind n := by
  have hstream := h.moves.stream
  obtain rfl := h.single rfl
  cases h with
  | perform ht _ _ _ =>
    have hpos := position_takeMany (ht.left n rfl)
    rw [kind_lookahead, current_eq, hpos, hstream]
    rfl

/-- So none starts behind an operator in front of an angle. -/
theorem not_angle_behind {n w level : Nat} {r : Rule} {ss : List Step} (hm : m = .lt ∨ m = .gt)
    (hk : p.lookahead.kind n = .mark m)
    (h : Leads Tame (.wrap w r :: .take n :: .expr (.binary level) :: ss) p q) : False := by
  obtain ⟨p1, h1, h⟩ := h.uncons
  obtain rfl := h1.single rfl
  obtain ⟨p2, h2, h⟩ := h.uncons
  obtain ⟨p3, h3, _⟩ := h.uncons
  exact not_binary_of_angle hm ((kind_of_take h2).trans hk) h3

/-- Where a comparison is looked for, angles that stand side by side touch. -/
theorem firm_of_comparisons {w mark : Nat}
    (h : Leads Tame ((ExprPart.operators 7 w).expand p.lookahead mark) p q) :
    p.lookahead.Firm := by
  intro m hm h0 h1
  apply Classical.byContradiction
  intro ht
  rw [Bool.not_eq_true] at ht
  have hop : p.lookahead.operatorAhead 7 = some (.cmpExpression, 1) := by
    rcases hm with rfl | rfl <;>
      simp [Lookahead.operatorAhead, Lookahead.comparisonAhead, Lookahead.doubled,
        Lookahead.atKeyword, Lookahead.atMark, h0, ht]
  rw [ExprPart.expand, hop] at h
  exact not_angle_behind hm h1 h

theorem firm_of_shift {r : Rule} {n : Nat}
    (hop : p.lookahead.operatorAhead 8 = some (r, n)) : p.lookahead.Firm := by
  simp only [Lookahead.operatorAhead] at hop
  split at hop
  · rename_i hd
    exact Lookahead.firm_of_doubled hd
  · split at hop
    · rename_i hd
      exact Lookahead.firm_of_doubled hd
    · cases hop

/-- Three angles are one shift when the first two are. -/
theorem touches_of_shifts {w mark : Nat}
    (h : Leads Tame ((ExprPart.operators 8 w).expand p.lookahead mark) p q)
    (hd : p.lookahead.doubled .gt = true) (h2 : p.lookahead.kind 2 = .mark .gt) :
    p.lookahead.touches 1 = true := by
  apply Classical.byContradiction
  intro ht
  rw [Bool.not_eq_true] at ht
  have hl : p.lookahead.doubled .lt = false := by
    simp only [Lookahead.doubled, Lookahead.atMark, Bool.and_eq_true, beq_iff_eq] at hd
    simp [Lookahead.doubled, Lookahead.atMark, hd.1.1]
  have hop : p.lookahead.operatorAhead 8 = some (.bitExpression, 2) := by
    simp [Lookahead.operatorAhead, hl, hd, ht]
  rw [ExprPart.expand, hop] at h
  exact not_angle_behind (.inr rfl) h2 h

end Operands

/-! ## The law -/

/-- Where the step looks for a comparison or a shift, angles that could be one touch. -/
structure Tight (p : Parser) (s : Step) : Prop where
  pairs (level m : Nat) : level = 7 ∨ level = 8 → s = .expr (.operators level m) →
    p.lookahead.Firm
  third (m : Nat) : s = .expr (.operators 8 m) → p.lookahead.doubled .gt = true →
    p.lookahead.kind 2 = .mark .gt → p.lookahead.touches 1 = true

/-- The law of steps: angles touch, and so they must behind a step that reads shifts. -/
def Tightens (s : Step) (p q : Parser) : Prop :=
  (s.shifts = true → q.lookahead.Firm) → Leads Tight [s] p q

abbrev TightensAll : List Step → Parser → Parser → Prop :=
  Chain fun s p q => Leads Tame [s] p q ∧ Tightens s p q

section Law

variable {p p' q r : Parser} {s : Step} {ss more : List Step} {level m : Nat}

theorem tight_of_ne (h : ∀ level, level = 7 ∨ level = 8 → ∀ m, s ≠ .expr (.operators level m)) :
    Tight p s :=
  ⟨fun level m hl hs => absurd hs (h level hl m), fun m hs => absurd hs (h 8 (.inr rfl) m)⟩

theorem tight_all (h : TightensAll ss p q) (hs : ss.all (!·.shifts) = true) :
    Leads Tight ss p q := by
  induction ss generalizing p with
  | nil => cases h; exact .done _
  | cons s ss ih =>
    obtain ⟨p', ⟨_, hlaw⟩, h⟩ := h
    rw [List.all_cons, Bool.and_eq_true, Bool.not_eq_true'] at hs
    exact (hlaw fun ht => absurd ht (by simp [hs.1])).append (ih h hs.2)

/-- A step that looks for no comparison and no shift, and is replaced by none. -/
theorem tightens_of_all (hp : p.perform s = (p', .ok more)) (hm : TightensAll more p' q)
    (hs : ∀ level, level = 7 ∨ level = 8 → ∀ m, s ≠ .expr (.operators level m))
    (hall : more.all (!·.shifts) = true) : Tightens s p q :=
  fun _ => .perform (tight_of_ne hs) hp (tight_all hm hall) (.done q)

/-- A comparison is looked for behind its shifts, and both see the same angles. -/
theorem tight_comparands (hm : TightensAll (.expr (.binary 8) :: ss) p q)
    (hs : ss.all (!·.shifts) = true)
    (hfirm : ∀ p', Leads Tight ss p' q → p'.lookahead.Firm) :
    Leads Tight (.expr (.binary 8) :: ss) p q := by
  obtain ⟨p1, ⟨_, h1⟩, h⟩ := hm
  have hrest := tight_all h hs
  exact (h1 fun _ => hfirm p1 hrest).append hrest

theorem tight_last (ss : List Step) (hm : TightensAll (ss ++ [s]) p q)
    (hs : ss.all (!·.shifts) = true)
    (hq : s.shifts = true → q.lookahead.Firm) : Leads Tight (ss ++ [s]) p q := by
  obtain ⟨p1, h1, q, ⟨_, h2⟩, rfl⟩ := Chain.append_iff.1 hm
  exact (tight_all h1 hs).append (h2 hq)

theorem firm_of_comparison (h : Leads Tight [.expr (.operators 7 m)] p q) :
    p.lookahead.Firm := by
  cases h with
  | perform ht _ _ _ => exact ht.pairs 7 m (.inl rfl) rfl

theorem firm_of_finished (h : Leads Tight [.finish, .expr (.operators 7 m)] p q) :
    p.lookahead.Firm := by
  obtain ⟨p', h1, h2⟩ := h.uncons
  obtain rfl := h1.single rfl
  exact firm_of_comparison (p := p.build (·.finish)) h2

theorem tightens_binary
    (hm : TightensAll ((ExprPart.binary level).expand p.lookahead p.tree.mark) p q) :
    Tightens (.expr (.binary level)) p q := by
  intro hq
  refine .perform (tight_of_ne (by simp)) rfl ?_ (.done q)
  by_cases h7 : level = 7
  · subst h7
    exact tight_comparands hm rfl fun _ => firm_of_comparison
  · by_cases h8 : level = 8
    · subst h8
      exact tight_last [.expr (.binary 9)] hm rfl fun _ => hq rfl
    · exact tight_all hm (ExprPart.all_shifts _ _ (by rintro l (rfl | rfl) <;> simp_all))

theorem tight_comparisons
    (hm : TightensAll ((ExprPart.operators 7 m).expand p.lookahead p.tree.mark) p q) :
    Leads Tight ((ExprPart.operators 7 m).expand p.lookahead p.tree.mark) p q := by
  rcases operators_cases p.lookahead 7 m p.tree.mark with h | ⟨r, n, o, rfl | rfl, h⟩
  · rw [h] at hm ⊢
    exact tight_all hm rfl
  · rw [h] at hm ⊢
    exact tight_all hm rfl
  · rw [h] at hm ⊢
    obtain ⟨p1, ⟨_, h1⟩, p2, ⟨_, h2⟩, h3⟩ := hm
    exact (h1 nofun).append ((h2 nofun).append
      (tight_comparands h3 rfl fun _ => firm_of_finished))

theorem tight_shifts
    (hm : TightensAll ((ExprPart.operators 8 m).expand p.lookahead p.tree.mark) p q)
    (hq : q.lookahead.Firm) :
    Leads Tight ((ExprPart.operators 8 m).expand p.lookahead p.tree.mark) p q := by
  rcases operators_cases p.lookahead 8 m p.tree.mark with h | ⟨r, n, o, ho, h⟩
  · rw [h] at hm ⊢
    exact tight_all hm rfl
  · rw [h] at hm ⊢
    refine tight_last [_, _, _, _] hm ?_ fun _ => hq
    rcases ho with rfl | rfl <;> rfl

theorem firm_of_shifts
    (hm : TightensAll ((ExprPart.operators 8 m).expand p.lookahead p.tree.mark) p q)
    (hq : q.lookahead.Firm) : p.lookahead.Firm := by
  cases hop : p.lookahead.operatorAhead 8 with
  | none =>
    rw [ExprPart.expand, hop] at hm
    cases hm
    exact hq
  | some o => exact firm_of_shift hop

theorem tightens_operators
    (hrun : Leads Tame ((ExprPart.operators level m).expand p.lookahead p.tree.mark) p q)
    (hm : TightensAll ((ExprPart.operators level m).expand p.lookahead p.tree.mark) p q) :
    Tightens (.expr (.operators level m)) p q := by
  intro hq
  by_cases h7 : level = 7
  · subst h7
    exact .perform ⟨fun _ _ _ _ => firm_of_comparisons hrun, nofun⟩ rfl (tight_comparisons hm)
      (.done q)
  · by_cases h8 : level = 8
    · subst h8
      exact .perform ⟨fun _ _ _ _ => firm_of_shifts hm (hq rfl), fun _ _ => touches_of_shifts hrun⟩
        rfl (tight_shifts hm (hq rfl)) (.done q)
    · refine .perform (tight_of_ne ?_) rfl (tight_all hm (ExprPart.all_shifts _ _ ?_)) (.done q)
      · rintro l (rfl | rfl) <;> simp_all
      · rintro l (rfl | rfl) <;> simp_all

/-- Every step keeps to the law when the steps that it leads to do. -/
theorem tightens_perform (h : p.perform s = (p', .ok more)) (hrun : Leads Tame more p' q)
    (hm : TightensAll more p' q) : Tightens s p q := by
  cases s with
  | start _ | wrap _ _ | finish | take _ | takeIf _ | skip | progress _ =>
    cases h
    exact tightens_of_all rfl hm (by simp) rfl
  | expect e =>
    have hall : more.all (!·.shifts) = true := by
      rcases expect_ok h with ⟨_, _, rfl⟩ | ⟨_, _, _, rfl⟩ | ⟨_, rfl⟩ <;> rfl
    exact tightens_of_all h hm (by simp) hall
  | expectThen e next =>
    intro hq
    refine .perform (tight_of_ne (by simp)) h ?_ (.done q)
    rcases expect_ok h with ⟨_, _, rfl⟩ | ⟨_, _, _, rfl⟩ | ⟨_, rfl⟩
    · exact tight_last [] hm rfl hq
    · exact tight_last [.skip, .take 1] hm rfl hq
    · exact tight_all hm rfl
  | complain c =>
    obtain ⟨_, rfl⟩ := reportThen_ok h
    exact tightens_of_all h hm (by simp) rfl
  | endOfText =>
    have hall : more.all (!·.shifts) = true := by
      have hp := h
      simp only [perform] at hp
      split at hp
      · cases hp; rfl
      · obtain ⟨_, rfl⟩ := reportThen_ok hp
        rfl
    exact tightens_of_all h hm (by simp) hall
  | skipRest =>
    have hall : more.all (!·.shifts) = true := by
      have hp := h
      simp only [perform] at hp
      split at hp <;> cases hp <;> rfl
    exact tightens_of_all h hm (by simp) hall
  | typ part => cases h; exact tightens_of_all rfl hm (by simp) part.all_shifts
  | soql part => cases h; exact tightens_of_all rfl hm (by simp) part.all_shifts
  | stmt part => cases h; exact tightens_of_all rfl hm (by simp) part.all_shifts
  | decl part => cases h; exact tightens_of_all rfl hm (by simp) part.all_shifts
  | expr part =>
    cases h
    cases part with
    | binary level => exact tightens_binary hm
    | operators level m => exact tightens_operators hrun hm
    | _ => exact tightens_of_all rfl hm (by simp) (ExprPart.all_shifts _ _ (by simp))

/-- In a calm run of a step that reads no shifts by itself, angles touch wherever that is
asked. -/
theorem tight_of_tame (h : Leads Tame [s] p q) (hs : s.shifts = false) : Leads Tight [s] p q := by
  obtain ⟨q, ⟨_, hlaw⟩, rfl⟩ := h.chain fun hp hrun hm => tightens_perform hp hrun hm
  exact hlaw fun ht => absurd ht (by simp [hs])

end Law

/-! ## Angles in windows -/

section Windows

variable {f : Token → Token} {t s : TokenStream} {d : Nat} {p q : Parser} {ss : List Step}

/-- Angles that touch also do in the other stream. -/
def KeepsShifts (t s : TokenStream) (d : Nat) : Prop :=
  ∀ i m, m = .lt ∨ m = .gt → Lookahead.doubled ⟨t, i⟩ m = true →
    Lookahead.doubled ⟨s, i + d⟩ m = true

/-- Where angles touch as they are asked to, it does not matter which others do. -/
theorem Sealed.seesOperators_of_tight (h : Sealed ss p q) (ht : Leads Tight ss p q)
    (hf : KeepsWords f) (hw : p.stream.Window f s d) (hk : KeepsShifts p.stream s d)
    (hs : p.stream.Spelled) : Leads (SeesOperators s d) ss p q := by
  refine (h.inside.and ht).onStream.mono ?_
  rintro p' st ⟨⟨hi, ht⟩, hstream⟩ level m rfl
  rcases hi.place with ⟨hp, _⟩ | ⟨_, htrails, _⟩
  case inr => cases htrails
  have hb := h.isBoundary hs
  have he := h.position_le
  rw [← hstream] at hw hk hb he
  have halike : Lookahead.Alike p'.lookahead ⟨s, p'.position + d⟩ _ := hw.alike hf hp he hb
  have hdoubled : level = 7 ∨ level = 8 → ∀ m, m = .lt ∨ m = .gt →
      Lookahead.doubled ⟨s, p'.position + d⟩ m = p'.lookahead.doubled m := by
    intro hl m hm
    refine halike.doubled hm fun h0 h1 => ?_
    have hv : p'.lookahead.touches 0 = true := ht.pairs level _ hl rfl m hm h0 h1
    have hd : p'.lookahead.doubled m = true := by
      simp [Lookahead.doubled, Lookahead.atMark, show p'.lookahead.kind 0 = _ from h0,
        show p'.lookahead.kind 1 = _ from h1, hv]
    have hw := hk p'.position m hm hd
    simp only [Lookahead.doubled, Bool.and_eq_true] at hw
    exact hw.2.trans hv.symm
  refine Lookahead.operatorAhead_congr (halike.kind 0 (Nat.zero_le _))
    (fun hl => ⟨hdoubled hl .lt (.inl rfl), hdoubled hl .gt (.inr rfl)⟩) ?_
  rintro rfl hd
  have hmarks := hd
  simp only [Lookahead.doubled, Lookahead.atMark, Bool.and_eq_true] at hmarks
  have hlast := halike.lt_of_mark (halike.lt_of_mark (Nat.zero_le _) hmarks.1.1 (by decide))
    hmarks.1.2 (by decide)
  rw [halike.kind 2 hlast]
  by_cases h2 : p'.lookahead.kind 2 = .mark .gt
  · have htouch := ht.third _ rfl hd h2
    have hd' : Lookahead.doubled ⟨p'.stream, p'.position + 1⟩ .gt = true := by
      rw [Lookahead.doubled_next, Bool.and_eq_true, Bool.and_eq_true]
      exact ⟨⟨hmarks.1.2, beq_iff_eq.2 h2⟩, htouch⟩
    have hw := hk _ .gt (.inr rfl) hd'
    rw [Nat.add_right_comm, Lookahead.doubled_next, Bool.and_eq_true] at hw
    rw [hw.2, htouch]
  · rw [beq_false_of_ne h2, Bool.false_and, Bool.false_and]

end Windows

end Parser

end ApexSyntax
