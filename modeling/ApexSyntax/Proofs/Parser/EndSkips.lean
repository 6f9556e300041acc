-- What each step does with the end of the text. It skips the end at most once, and where
-- it leads to no statement there, not at all.
import ApexSyntax.Proofs.Replay.Takes

namespace ApexSyntax

/-! ## Steps at the end of the text -/

namespace Step

/-- The step may skip the end of the text when it is performed there. -/
def skipsEnd : Step → Bool
  | skip | stmt .statement | stmt .loopBody | decl (.blockMember _) => true
  | _ => false

/-- Neither the step nor what it leads to skips the end of the text, wherever it is
performed. -/
def sparesEnd : Step → Bool
  | skip | endOfText => false
  | expectThen _ next => next.sparesEnd
  | stmt .parenthesized | stmt .localVariables => true
  | stmt .loopControl | stmt .loopStart | stmt .loopCondition | stmt .loopUpdate => true
  | decl .modifiers | decl .annotationArguments | decl .annotationValues => true
  | decl .elementValue | decl .elementValues | decl .qualifiedName => true
  | decl .variables | decl .variable | decl .variableValue | decl .moreVariables => true
  | stmt _ | decl _ => false
  | _ => true

/-- The step takes or skips tokens as they come. -/
def isBare : Step → Bool
  | take _ | skip | skipRest | progress _ => true
  | _ => false

end Step

/-- At most one of the steps can come to skip the end of the text: those in front of it spare
the end, and those behind it skip nothing once the end is reached. -/
def endsOnce : List Step → Bool
  | [] => true
  | s :: ss => (s.sparesEnd && endsOnce ss) || ss.all (!·.skipsEnd)

section Parts

variable {v : Lookahead}

theorem TypePart.spared (p : TypePart) : (p.expand v).all Step.sparesEnd = true := by
  cases p <;> simp only [expand] <;> repeat' split
  all_goals rfl

theorem ExprPart.spared (p : ExprPart) (mark : Nat) :
    (p.expand v mark).all Step.sparesEnd = true := by
  cases p with
  | primary =>
    exact primarySteps_cases (P := fun ss =>
      (Step.start .primaryExpression :: ss ++ [Step.finish]).all Step.sparesEnd = true) v
      rfl rfl rfl rfl rfl rfl rfl rfl rfl
  | _ =>
    simp only [expand, unarySteps, rightOperand]
    repeat' split
    all_goals rfl

theorem QueryPart.spared (p : QueryPart) : (p.expand v).all Step.sparesEnd = true := by
  cases p <;> simp only [expand, clause, selectEntrySteps, valueSteps] <;> repeat' split
  all_goals rfl

theorem StmtPart.spared (p : StmtPart) (h : (Step.stmt p).sparesEnd = true) :
    (p.expand v).all Step.sparesEnd = true := by
  cases p <;> cases h
  all_goals simp only [expand, loopControlSteps]
  all_goals repeat' split
  all_goals rfl

theorem StmtPart.endsOnce_expand (p : StmtPart) : endsOnce (p.expand v) = true := by
  cases p <;> simp only [expand, statementSteps, dmlSteps, untilBrace, loopControlSteps,
    whenValueSteps] <;> repeat' split
  all_goals rfl

theorem DeclPart.spared (p : DeclPart) (h : (Step.decl p).sparesEnd = true) :
    (p.expand v).all Step.sparesEnd = true := by
  cases p <;> cases h
  all_goals simp only [expand, annotationValueSteps]
  all_goals repeat' split
  all_goals rfl

theorem DeclPart.endsOnce_expand (p : DeclPart) : endsOnce (p.expand v) = true := by
  cases p <;> simp only [expand, untilBrace, memberSteps, classMemberSteps,
    annotationValueSteps] <;> repeat' split
  all_goals rfl

/-- At the end of the text, nothing leads to a statement but what asks for one. -/
theorem StmtPart.atEnd (hv : v.kind 0 = .eof) (p : StmtPart)
    (h : (Step.stmt p).skipsEnd = false) : (p.expand v).all (!·.skipsEnd) = true := by
  cases p <;> cases h
  all_goals
    simp only [expand, untilBrace, loopControlSteps, whenValueSteps, Lookahead.atKeyword_of_eof hv,
      Lookahead.atMark_of_eof hv, hv, BEq.rfl, Bool.or_true, if_true, Bool.false_eq_true, if_false]
  all_goals repeat' split
  all_goals rfl

theorem DeclPart.atEnd (hv : v.kind 0 = .eof) (p : DeclPart)
    (h : (Step.decl p).skipsEnd = false) : (p.expand v).all (!·.skipsEnd) = true := by
  cases p <;> cases h
  all_goals
    simp only [expand, untilBrace, memberSteps, classMemberSteps, annotationValueSteps, hv,
      BEq.rfl, Bool.or_true, if_true]
  all_goals repeat' split
  all_goals rfl

end Parts

/-! ## Leaves of the end -/

/-- The leaves among some that are the end of the text. -/
def endsOf (leaves : List Leaf) : List Leaf := leaves.filter (·.token.isEof)

@[simp] theorem endsOf_append (ks ls : List Leaf) : endsOf (ks ++ ls) = endsOf ks ++ endsOf ls :=
  List.filter_append ..

namespace Parser

/-- No leaf is added that is the end of the text. -/
def SameEnds (p q : Parser) : Prop := endsOf q.tree.leaves = endsOf p.tree.leaves

/-- At the end of the text, the end is skipped once, and no other leaf is the end. -/
def SkipsEnd (p q : Parser) : Prop :=
  AtEnd q ∧ endsOf q.tree.leaves = endsOf p.tree.leaves ++ [⟨p.stream.eof, true⟩]

section Ends

variable {p q r : Parser} {n : Nat}

theorem SameEnds.refl (p : Parser) : SameEnds p p := rfl

theorem SameEnds.trans (h : SameEnds p q) (h' : SameEnds q r) : SameEnds p r :=
  Eq.trans h' h

theorem SameEnds.skipsEnd (h : SameEnds p q) (hm : Moves p q) (h' : SkipsEnd q r) :
    SkipsEnd p r := by
  refine ⟨h'.1, ?_⟩
  rw [h'.2, hm.stream]
  exact congrArg (· ++ _) h

theorem SkipsEnd.sameEnds (h : SkipsEnd p q) (hm : Moves q r) (h' : SameEnds q r) :
    SkipsEnd p r :=
  ⟨h.1.moves hm, Eq.trans h' h.2⟩

theorem sameEnds_of_leaves (h : q.tree.leaves = p.tree.leaves) : SameEnds p q := by
  rw [SameEnds, h]

theorem sameEnds_build {f : Builder → Builder} (h : (f p.tree).leaves = p.tree.leaves) :
    SameEnds p (p.build f) := sameEnds_of_leaves h

theorem sameEnds_report (p : Parser) (message : String) : SameEnds p (p.report message).1 :=
  sameEnds_of_leaves (by rw [tree_report])

theorem not_isEof_of_not_atEnd (h : ¬ AtEnd p) : p.current.isEof = false := by
  rwa [Bool.eq_false_iff, Ne, isEof_current_iff]

theorem sameEnds_take (h : ¬ AtEnd p) : SameEnds p p.take := by
  rw [SameEnds, tree_take, Builder.leaves_add, endsOf_append]
  simp [endsOf, not_isEof_of_not_atEnd h]

theorem sameEnds_skip (h : ¬ AtEnd p) : SameEnds p p.skip := by
  rw [SameEnds, leaves_skip, endsOf_append]
  simp [endsOf, not_isEof_of_not_atEnd h]

theorem skipsEnd_skip (h : AtEnd p) : SkipsEnd p p.skip := by
  refine ⟨h.moves (moves_skip p), ?_⟩
  have hcurrent : p.current = p.stream.eof := TokenStream.nth_of_le h
  rw [leaves_skip, endsOf_append, hcurrent]
  simp [endsOf, Token.isEof]

/-- Tokens that are there are not the end. -/
theorem sameEnds_takeMany (h : n ≤ p.lookahead.left) : SameEnds p (p.takeMany n) := by
  induction n generalizing p with
  | zero => exact .refl p
  | succ n ih =>
    have hleft : p.lookahead.left = p.stream.visible.size - p.position := rfl
    have hlt : p.position < p.stream.visible.size := by omega
    have hnext : n ≤ p.take.lookahead.left := by
      have htake : p.take.lookahead.left = p.stream.visible.size - p.behind := rfl
      rw [htake, behind_of_lt hlt]
      omega
    exact (sameEnds_take (Nat.not_le.2 hlt)).trans (ih hnext)

end Ends

/-! ## Fair steps -/

/-- A step takes only tokens that are there, and asks for progress only behind a place before
the end of the text. -/
structure Fair (p : Parser) (s : Step) : Prop where
  steady : s.Steady ∨ s = .skipRest ∨ ∃ n, s = .take n ∧ n ≤ p.lookahead.left
  before (i : Nat) : s = .progress i → i < p.stream.visible.size

/-- Steps that are fair when it is their turn. -/
structure FairAll (p : Parser) (ss : List Step) : Prop where
  holds : p.lookahead.Holds ss
  before (i : Nat) : .progress i ∈ ss → i < p.stream.visible.size

section Fair

variable {p q : Parser} {s x : Step} {ss : List Step}

theorem Fair.left {n : Nat} (h : Fair p (.take n)) : n ≤ p.lookahead.left := by
  rcases h.steady with (hs | hs | ⟨i, hs⟩) | hs | ⟨m, hs, hle⟩
  all_goals cases hs
  exact hle

/-- Any other fair step is plain. -/
theorem Fair.plain (h : Fair p s) (hs : s.isBare = false) : s.plain = true := by
  rcases h.steady with (hp | rfl | ⟨i, rfl⟩) | rfl | ⟨n, rfl, -⟩
  · exact hp
  all_goals cases hs

theorem fair_of_plain (h : s.plain = true) : Fair p s :=
  ⟨.inl (.inl h), by rintro i rfl; cases h⟩

theorem fair_skipRest : Fair p .skipRest :=
  ⟨.inr (.inl rfl), nofun⟩

theorem FairAll.head (h : FairAll p (s :: ss)) : Fair p s := by
  refine ⟨?_, fun i hi => h.before i (hi ▸ List.mem_cons_self)⟩
  have hholds := h.holds
  cases s with
  | start | wrap => exact .inl (.inl rfl)
  | take n => exact .inr (.inr ⟨n, rfl, hholds.1⟩)
  | _ => exact .inl (hholds _ List.mem_cons_self)

theorem FairAll.tail (h : FairAll p (s :: ss)) (hr : Runs [s] p q) : FairAll q ss := by
  refine ⟨?_, fun i hi => by rw [hr.moves.stream]; exact h.before i (List.mem_cons_of_mem _ hi)⟩
  have hholds := h.holds
  cases s with
  | start | wrap =>
    obtain rfl := hr.single rfl
    exact hholds
  | take n => exact holds_of_steady hholds.2
  | _ => exact holds_of_steady fun t ht => hholds t (List.mem_cons_of_mem _ ht)

/-- Steps that skip stand behind the first token that is read. -/
theorem mem_behindFirst {rest : List Step} (hb : behindFirst ss = some rest) (h : s ∈ ss)
    (hs : s = .skip ∨ ∃ i, s = .progress i) : s ∈ rest := by
  induction ss with
  | nil => cases hb
  | cons t ss ih =>
    have htail : (∀ i, t ≠ .progress i) → t ≠ .skip → s ∈ ss := by
      intro hprogress hskip
      rcases List.mem_cons.1 h with rfl | h
      · rcases hs with hs | ⟨i, hs⟩
        · exact absurd hs hskip
        · exact absurd hs (hprogress i)
      · exact h
    cases t with
    | start | wrap => exact ih hb (htail nofun nofun)
    | take n =>
      cases n with
      | zero => cases hb
      | succ n =>
        cases hb
        exact htail nofun nofun
    | _ => cases hb

/-- What a part is replaced by asks for progress behind the current token, and that is not
the end. -/
theorem progress_of_form {i : Nat} (hx : x.plain = true) (hf : Form p.lookahead x ss)
    (hi : .progress i ∈ ss) : i = p.position ∧ p.lookahead.kind 0 ≠ .eof := by
  cases hf with
  | calm hl =>
    simp only [lighter, Bool.and_eq_true, List.all_eq_true] at hl
    exact absurd (hl.1.2 _ hi).1 Bool.false_ne_true
  | reads hv hb _ hr =>
    rcases hr _ (mem_behindFirst hb hi (.inr ⟨i, rfl⟩)) with hp | hp
    · cases hp
    · cases hp
      exact ⟨rfl, hv⟩
  | turn items hv _ _ _ _ hp _ =>
    refine ⟨?_, hv⟩
    rcases List.mem_append.1 hi with hi | hi
    · exact absurd (Bool.and_eq_true_iff.1 (List.all_eq_true.1 hp _ hi)).1 Bool.false_ne_true
    · simp only [List.mem_cons, List.not_mem_nil, or_false] at hi
      rcases hi with hi | rfl
      · cases hi
        rfl
      · cases hx
  | refused _ => simp at hi

/-- A part is replaced by steps that are fair. -/
theorem fairAll_of_form (hx : x.plain = true) (hf : Form p.lookahead x ss)
    (ht : ∀ n, .take n ∈ ss → 1 < n → n ≤ p.lookahead.left) : FairAll p ss := by
  refine ⟨holds_of_form hx hf ht, fun i hi => ?_⟩
  obtain ⟨rfl, hv⟩ := progress_of_form hx hf hi
  exact (kind_ne_eof_iff p).1 hv

end Fair

/-! ## The end is skipped once -/

/-- What a step does with the end of the text. -/
structure KeepsEnds (s : Step) (p q : Parser) : Prop where
  atMostOnce : SameEnds p q ∨ SkipsEnd p q
  spared : s.sparesEnd = true → SameEnds p q
  atEnd : AtEnd p → s.skipsEnd = false → SameEnds p q
  skip : s = .skip → ¬ AtEnd p → SameEnds p q

/-- At the end, a skip skips the end. -/
theorem keepsEnds_skip {p : Parser} (h : AtEnd p) : KeepsEnds .skip p p.skip :=
  ⟨.inr (skipsEnd_skip h), nofun, fun _ => nofun, fun _ hp => absurd h hp⟩

theorem SameEnds.keeps {s : Step} {p q : Parser} (h : SameEnds p q) : KeepsEnds s p q :=
  ⟨.inl h, fun _ => h, fun _ _ => h, fun _ _ => h⟩

/-- The law of fair steps. -/
abbrev EndLaw (s : Step) (p q : Parser) : Prop := Fair p s → KeepsEnds s p q

abbrev EndLawAll : List Step → Parser → Parser → Prop :=
  Chain fun s p q => Runs [s] p q ∧ EndLaw s p q

section Lists

variable {p q : Parser} {ss : List Step}

theorem sameEnds_all (h : EndLawAll ss p q) (hf : FairAll p ss)
    (hs : ss.all Step.sparesEnd = true) : SameEnds p q := by
  induction ss generalizing p with
  | nil => cases h; exact .refl _
  | cons s ss ih =>
    obtain ⟨r, ⟨hrun, hlaw⟩, h⟩ := h
    rw [List.all_cons, Bool.and_eq_true] at hs
    exact ((hlaw hf.head).spared hs.1).trans (ih h (hf.tail hrun) hs.2)

/-- At the end of the text. -/
theorem sameEnds_of_atEnd (h : EndLawAll ss p q) (hf : FairAll p ss) (hp : AtEnd p)
    (hs : ss.all (!·.skipsEnd) = true) : SameEnds p q := by
  induction ss generalizing p with
  | nil => cases h; exact .refl _
  | cons s ss ih =>
    obtain ⟨r, ⟨hrun, hlaw⟩, h⟩ := h
    rw [List.all_cons, Bool.and_eq_true, Bool.not_eq_true'] at hs
    have hr := hp.moves hrun.moves
    exact ((hlaw hf.head).atEnd hp hs.1).trans (ih h (hf.tail hrun) hr hs.2)

/-- Once the end is skipped, steps that skip no end there leave it at that. -/
theorem once_of_head {s : Step} {r : Parser} (hrun : Runs [s] p r) (hs : KeepsEnds s p r)
    (h : EndLawAll ss r q) (hf : FairAll r ss) (hrest : SameEnds r q ∨ SkipsEnd r q)
    (hss : ss.all (!·.skipsEnd) = true) : SameEnds p q ∨ SkipsEnd p q := by
  rcases hs.atMostOnce with hsame | hskip
  · exact hrest.imp hsame.trans (hsame.skipsEnd hrun.moves)
  · have hmoves : Moves r q :=
      h.fold Moves.refl (fun _ _ _ => Moves.trans) fun _ _ _ hc => hc.1.moves
    exact .inr (hskip.sameEnds hmoves (sameEnds_of_atEnd h hf hskip.1 hss))

theorem once_of_notSkips (h : EndLawAll ss p q) (hf : FairAll p ss)
    (hs : ss.all (!·.skipsEnd) = true) : SameEnds p q ∨ SkipsEnd p q := by
  induction ss generalizing p with
  | nil => cases h; exact .inl (.refl _)
  | cons s ss ih =>
    obtain ⟨r, ⟨hrun, hlaw⟩, h⟩ := h
    rw [List.all_cons, Bool.and_eq_true] at hs
    exact once_of_head hrun (hlaw hf.head) h (hf.tail hrun) (ih h (hf.tail hrun) hs.2) hs.2

theorem once_of_endsOnce (h : EndLawAll ss p q) (hf : FairAll p ss)
    (hs : endsOnce ss = true) : SameEnds p q ∨ SkipsEnd p q := by
  induction ss generalizing p with
  | nil => cases h; exact .inl (.refl _)
  | cons s ss ih =>
    obtain ⟨r, ⟨hrun, hlaw⟩, h⟩ := h
    have htail := hf.tail hrun
    simp only [endsOnce, Bool.or_eq_true, Bool.and_eq_true] at hs
    rcases hs with ⟨hspares, hs⟩ | hs
    · have hsame := (hlaw hf.head).spared hspares
      exact (ih h htail hs).imp hsame.trans (hsame.skipsEnd hrun.moves)
    · exact once_of_head hrun (hlaw hf.head) h htail (once_of_notSkips h htail hs) hs

end Lists

section Law

variable {p p' q : Parser} {s : Step} {more : List Step}

/-- What is expected is no end, neither here nor behind another token. So no end is read up
to what follows the expected token. -/
theorem ends_expect {C : Step → Parser → Parser → Prop} {e : Expected} {next : List Step}
    (hC : ∀ {s p q}, C s p q → Runs [s] p q) (he : e.isReal = true)
    (h : p.expect e next = (p', .ok more)) (hm : Chain C more p' q) :
    SameEnds p q ∨ ¬ AtEnd p ∧ ∃ r, SameEnds p r ∧ Moves p r ∧ Chain C next r q := by
  have hreal : ∀ r : Parser, e.accepts r.current = true → ¬ AtEnd r := fun r ha =>
    Nat.not_le.2 ((kind_ne_eof_iff r).1 (Expected.kind_ne_eof (v := r.lookahead) he ha))
  rcases expect_ok h with ⟨ha, rfl, rfl⟩ | ⟨heof, ha, ⟨m, rfl⟩, rfl⟩ | ⟨⟨m, rfl⟩, rfl⟩
  · exact .inr ⟨hreal p ha, _, sameEnds_take (hreal p ha), moves_take p, hm⟩
  · have hlt : ¬ AtEnd p := fun hend => by
      rw [(isEof_current_iff p).2 hend] at heof
      cases heof
    obtain ⟨r, hskip, r', htake, hm⟩ := hm
    obtain rfl := (hC hskip).single rfl
    obtain rfl := (hC htake).single rfl
    have hpos : (p.report m).1.behind = p.position + 1 := by
      rw [behind, current_eq, stream_report, position_report, ← current_eq, heof]
      rfl
    have hcurrent : (p.report m).1.skip.current = p.lookahead.nth 1 := by
      rw [current_eq, position_skip, stream_skip, stream_report, hpos]
      rfl
    have hreport : ¬ AtEnd (p.report m).1 := by
      rwa [AtEnd, stream_report, position_report]
    refine .inr ⟨hlt, _, ?_, ((moves_report p m).trans (moves_skip _)).trans (moves_take _), hm⟩
    exact ((sameEnds_report p m).trans (sameEnds_skip hreport)).trans
      (sameEnds_take (hreal _ (hcurrent ▸ ha)))
  · cases hm
    exact .inl (sameEnds_report p m)

theorem keepsEnds_expect {e : Expected} {next : List Step} (he : e.isReal = true)
    (hskip : s ≠ .skip) (h : p.expect e next = (p', .ok more)) (hm : EndLawAll more p' q)
    (hnext : ∀ {r}, EndLawAll next r q → (SameEnds r q ∨ SkipsEnd r q) ∧
      (s.sparesEnd = true → SameEnds r q)) : KeepsEnds s p q := by
  rcases ends_expect And.left he h hm with hsame | ⟨hlt, r, hsame, hmoves, hm⟩
  · exact hsame.keeps
  · obtain ⟨honce, hspares⟩ := hnext hm
    exact ⟨honce.imp hsame.trans (hsame.skipsEnd hmoves), fun hs => hsame.trans (hspares hs),
      fun hp => absurd hp hlt, fun hs => absurd hs hskip⟩

theorem sameEnds_skipRest (h : p.perform .skipRest = (p', .ok more)) (hm : EndLawAll more p' q) :
    SameEnds p q := by
  simp only [perform] at h
  split at h
  · cases h
    cases hm
    exact .refl p
  · rename_i heof
    cases h
    obtain ⟨_, ⟨-, hlaw⟩, rfl⟩ := hm
    have hskip := sameEnds_skip (p := p) fun hend => heof ((isEof_current_iff p).2 hend)
    exact hskip.trans ((hlaw fair_skipRest).spared rfl)

/-- A part keeps to the law when the steps that it is replaced by do. -/
theorem keepsEnds_part (hs : s ≠ .skip) (hf : FairAll p more) (hm : EndLawAll more p q)
    (hspared : s.sparesEnd = true → more.all Step.sparesEnd = true)
    (honce : endsOnce more = true)
    (hend : p.lookahead.kind 0 = .eof → s.skipsEnd = false → more.all (!·.skipsEnd) = true) :
    KeepsEnds s p q where
  atMostOnce := once_of_endsOnce hm hf honce
  spared h := sameEnds_all hm hf (hspared h)
  atEnd hp h := by
    refine sameEnds_of_atEnd hm hf hp (hend (Classical.not_not.1 fun hne => ?_) h)
    exact absurd hp (Nat.not_le.2 ((kind_ne_eof_iff p).1 hne))
  skip h := absurd h hs

/-- A part that leads to nothing that skips the end. -/
theorem keepsEnds_spared (hf : FairAll p more) (hm : EndLawAll more p q)
    (hspared : more.all Step.sparesEnd = true) : KeepsEnds s p q :=
  (sameEnds_all hm hf hspared).keeps

/-- Every step keeps to the law when the steps that it leads to do. -/
theorem endLaw_perform (h : p.perform s = (p', .ok more)) (hm : EndLawAll more p' q) :
    EndLaw s p q := by
  intro hfair
  cases s with
  | start r => cases h; cases hm; exact (sameEnds_build (by simp)).keeps
  | wrap mark r => cases h; cases hm; exact (sameEnds_build (by simp)).keeps
  | finish => cases h; cases hm; exact (sameEnds_build (by simp)).keeps
  | take n =>
    cases h
    cases hm
    exact (sameEnds_takeMany hfair.left).keeps
  | takeIf m =>
    cases h
    cases hm
    by_cases hat : p.lookahead.atMark m = true
    · rw [if_pos hat]
      refine (sameEnds_take fun hend => ?_).keeps
      have hv : p.lookahead.kind 0 = .eof := beq_iff_eq.1 ((isEof_current_iff p).2 hend)
      rw [Lookahead.atMark_of_eof hv] at hat
      cases hat
    · rw [if_neg hat]
      exact (SameEnds.refl p).keeps
  | skip =>
    cases h
    cases hm
    by_cases hend : AtEnd p
    · exact keepsEnds_skip hend
    · exact (sameEnds_skip hend).keeps
  | progress i =>
    cases h
    cases hm
    by_cases hi : p.position = i
    · rw [if_pos hi]
      refine (sameEnds_skip ?_).keeps
      exact Nat.not_le.2 (hi ▸ hfair.before i rfl)
    · rw [if_neg hi]
      exact (SameEnds.refl p).keeps
  | expect e =>
    refine keepsEnds_expect (hfair.plain rfl) nofun h hm ?_
    rintro r ⟨⟩
    exact ⟨.inl (.refl _), fun _ => .refl _⟩
  | expectThen e next =>
    obtain ⟨he, hn⟩ := Bool.and_eq_true_iff.1 (hfair.plain rfl)
    refine keepsEnds_expect he nofun h hm ?_
    rintro r ⟨_, ⟨-, hlaw⟩, rfl⟩
    have hkeeps := hlaw (fair_of_plain hn)
    exact ⟨hkeeps.atMostOnce, hkeeps.spared⟩
  | complain c =>
    obtain ⟨rfl, rfl⟩ := reportThen_ok h
    cases hm
    exact (sameEnds_report p _).keeps
  | endOfText => cases hfair.plain rfl
  | skipRest => exact (sameEnds_skipRest h hm).keeps
  | typ part =>
    cases h
    exact keepsEnds_spared (fairAll_of_form rfl part.form fun _ => part.take_le) hm part.spared
  | expr part =>
    cases h
    exact keepsEnds_spared (fairAll_of_form rfl (part.form _) fun _ => part.take_le _) hm
      (part.spared _)
  | soql part =>
    cases h
    exact keepsEnds_spared (fairAll_of_form rfl part.form fun _ => part.take_le) hm part.spared
  | stmt part =>
    cases h
    exact keepsEnds_part nofun (fairAll_of_form rfl part.form fun _ => part.take_le) hm
      part.spared part.endsOnce_expand part.atEnd
  | decl part =>
    have hplain := hfair.plain rfl
    cases h
    exact keepsEnds_part nofun (fairAll_of_form hplain (part.form hplain) fun _ => part.take_le)
      hm part.spared part.endsOnce_expand part.atEnd

theorem endLaw_of_runs (h : Runs [s] p q) : EndLaw s p q := by
  obtain ⟨_, ⟨-, hlaw⟩, rfl⟩ := h.chain fun hp _ hm => endLaw_perform hp hm
  exact hlaw

end Law

end Parser

end ApexSyntax
