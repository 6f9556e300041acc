-- The end of the text is matched by units only, and last: behind it a call closes
-- its nodes, and does nothing else.
import ApexSyntax.Proofs.Parser.History
import ApexSyntax.Proofs.Parser.Lossless
import ApexSyntax.Proofs.Parser.Recovery

namespace ApexSyntax

/-- The step matches no end of the text, wherever it is performed. -/
def Step.inner : Step → Bool
  | skip | progress _ | skipRest => true
  | s => s.plain

theorem inner_of_plain {s : Step} (h : s.plain = true) : s.inner = true := by
  cases s <;> first | rfl | exact h

namespace Parser

/-! ## Steps before the end of the text -/

/-- Steps that match no end of the text. -/
abbrev Within : List Step → Parser → Parser → Prop := Leads fun p s => ¬ MatchesEnd p s

abbrev WithinAll : List Step → Parser → Parser → Prop :=
  Chain fun s p q => Runs [s] p q ∧ (s.inner = true → Within [s] p q)

section Within

variable {p p' q : Parser} {s x : Step} {ss more : List Step}

theorem Within.single (hs : ¬ MatchesEnd p s) (hp : p.perform s = (p', .ok more))
    (h : Within more p' q) : Within [s] p q :=
  .perform hs hp h (.done q)

theorem within_all (h : WithinAll ss p q) (hs : ∀ s ∈ ss, s.inner = true) : Within ss p q := by
  induction ss generalizing p with
  | nil => cases h; exact .done _
  | cons s ss ih =>
    obtain ⟨p', ⟨_, hw⟩, h⟩ := h
    apply (hw (hs s List.mem_cons_self)).append
    apply ih h
    intro t ht
    exact hs t (List.mem_cons_of_mem _ ht)

theorem not_matchesEnd_take (h : p.lookahead.kind 0 ≠ .eof) (n : Nat) :
    ¬ MatchesEnd p (.take n) := by
  rintro ⟨_, he⟩
  exact h (by rwa [Token.isEof, beq_iff_eq] at he)

/-- Steps that read a token first, before the end, match no end. -/
theorem within_behindFirst {rest : List Step} (h : WithinAll ss p q)
    (hf : behindFirst ss = some rest) (hv : p.lookahead.kind 0 ≠ .eof)
    (hs : ∀ s ∈ rest, s.inner = true) : Within ss p q := by
  induction ss generalizing p with
  | nil => cases hf
  | cons s ss ih =>
    obtain ⟨p', ⟨hrun, hw⟩, h⟩ := h
    cases s with
    | start r =>
      obtain rfl : p' = p.build (·.start r) := hrun.single rfl
      exact (hw rfl).append (ih h hf hv)
    | wrap mark r =>
      obtain rfl : p' = p.build (·.wrap mark r) := hrun.single rfl
      exact (hw rfl).append (ih h hf hv)
    | take n =>
      cases n with
      | zero => cases hf
      | succ n =>
        cases hf
        obtain rfl : p' = p.takeMany (n + 1) := hrun.single rfl
        exact .perform (not_matchesEnd_take hv _) rfl (.done _) (within_all h hs)
    | _ => cases hf

/-- What a part is replaced by matches no end. -/
theorem within_form (hx : x.plain = true) (hf : Form p.lookahead x ss) (h : WithinAll ss p q) :
    Within ss p q := by
  cases hf with
  | calm hl =>
    simp only [lighter, Bool.and_eq_true, List.all_eq_true] at hl
    exact within_all h fun s hs => inner_of_plain (hl.1.2 s hs).1
  | reads hv hb _ hr =>
    refine within_behindFirst h hb hv ?_
    intro s hs
    rcases hr s hs with hp | rfl
    · exact inner_of_plain hp
    · rfl
  | turn items _ _ _ _ _ hp _ =>
    refine within_all h ?_
    intro s hs
    rcases List.mem_append.1 hs with hs | hs
    · exact inner_of_plain (Bool.and_eq_true_iff.1 (List.all_eq_true.1 hp s hs)).1
    · rcases List.mem_cons.1 hs with rfl | hs
      · rfl
      · rw [List.mem_singleton.1 hs]
        exact inner_of_plain hx
  | refused _ => exact within_all h (by simp [Step.inner, Step.plain])

theorem within_part (hs : s.plain = true) (hp : p.perform s = (p, .ok more))
    (hn : ¬ MatchesEnd p s) (hf : Form p.lookahead s more) (hm : WithinAll more p q) :
    Within [s] p q :=
  .single hn hp (within_form hs hf hm)

/-- A token that is expected is not the end, neither here nor behind another. -/
theorem within_expect {e : Expected} {next : List Step} (he : e.isReal = true)
    (hs : MatchesEnd p s → e.accepts p.current = true ∧ p.current.isEof = true)
    (hp : p.perform s = p.expect e next) (h : p.perform s = (p', .ok more))
    (hnext : ∀ t ∈ next, t.plain = true) (hm : WithinAll more p' q) : Within [s] p q := by
  have hreal : ∀ r : Parser, e.accepts r.current = true → r.lookahead.kind 0 ≠ .eof :=
    fun r ha => Expected.kind_ne_eof (v := r.lookahead) he ha
  refine .single ?_ h ?_
  · intro hend
    obtain ⟨ha, heof⟩ := hs hend
    exact hreal p ha (by rwa [Token.isEof, beq_iff_eq] at heof)
  · rcases expect_ok (hp ▸ h) with ⟨_, rfl, rfl⟩ | ⟨heof, ha, ⟨m, rfl⟩, rfl⟩ | ⟨_, rfl⟩
    · exact within_all hm fun t ht => inner_of_plain (hnext t ht)
    · obtain ⟨p2, ⟨h2, hskip⟩, p3, ⟨h3, _⟩, h4⟩ := hm
      obtain rfl : p2 = (p.report m).1.skip := h2.single rfl
      have hc : (p.report m).1.skip.current = p.lookahead.nth 1 := by
        have hpos : (p.report m).1.behind = p.position + 1 := by
          rw [behind, current_eq, stream_report, position_report, ← current_eq, heof]
          rfl
        rw [current_eq, position_skip, stream_skip, stream_report, hpos]
        rfl
      have hv := hreal _ (hc ▸ ha)
      obtain rfl : p3 = (p.report m).1.skip.takeMany 1 := h3.single rfl
      have hrest := within_all h4 fun t ht => inner_of_plain (hnext t ht)
      exact (hskip rfl).append (.perform (not_matchesEnd_take hv 1) rfl (.done _) hrest)
    · cases hm
      exact .done _

/-- A step before the end matches no end when the steps that it leads to do not. -/
theorem within_perform (h : p.perform s = (p', .ok more)) (hm : WithinAll more p' q)
    (hs : s.inner = true) : Within [s] p q := by
  cases s with
  | start _ | wrap _ _ | finish | takeIf _ | skip | progress _ =>
    have hp := h
    cases h
    cases hm
    exact .single id hp (.done _)
  | complain c =>
    have hp := h
    obtain ⟨rfl, rfl⟩ := reportThen_ok h
    cases hm
    exact .single id hp (.done _)
  | skipRest =>
    refine .single id h (within_all hm ?_)
    simp only [Parser.perform] at h
    split at h
    · cases h
      simp
    · cases h
      simp [Step.inner]
  | take _ | endOfText => cases hs
  | expect e => exact within_expect hs id rfl h (by simp) hm
  | expectThen e next =>
    obtain ⟨he, hn⟩ := Bool.and_eq_true_iff.1 hs
    exact within_expect he id rfl h (by simpa using hn) hm
  | typ part => cases h; exact within_part rfl rfl id part.form hm
  | expr part => cases h; exact within_part rfl rfl id (part.form _) hm
  | soql part => cases h; exact within_part rfl rfl id part.form hm
  | stmt part => cases h; exact within_part rfl rfl id part.form hm
  | decl part => cases h; exact within_part hs rfl id (part.form hs) hm

/-- Every run of steps before the end matches no end. -/
theorem within_of_runs (h : Runs ss p q) (hs : ∀ s ∈ ss, s.inner = true) : Within ss p q :=
  within_all (h.chain fun hp _ hm hs => within_perform hp hm hs) hs

theorem within_of_plain (h : Runs ss p q) (hs : ∀ s ∈ ss, s.plain = true) : Within ss p q :=
  within_of_runs h fun s hmem => inner_of_plain (hs s hmem)

end Within

/-! ## The last match of a call -/

/-- Behind the end of the text, nodes are closed and nothing else is done. -/
def EndsCall (s : Step) (rest : List Step) (p : Parser) : Prop :=
  MatchesEnd p s → ∀ t ∈ p.remaining s rest, t = .finish

section Ends

variable {p q : Parser} {ss ts : List Step}

theorem endsCall_of_within (h : Within ss p q) (ht : Always EndsCall ts q) :
    Always EndsCall (ss ++ ts) p :=
  always_of_leads (fun _ _ _ hno hend => absurd hend hno) h ht

theorem endsCall_finish (p : Parser) : Always EndsCall [.finish] p :=
  always_cons (fun hend => hend.elim) always_nil

theorem endsCall_take (p : Parser) : Always EndsCall [.take 1, .finish] p := by
  refine always_cons (fun _ t ht => ?_) (endsCall_finish _)
  exact List.mem_singleton.1 ht

theorem endsCall_endOfText (p : Parser) : Always EndsCall [.endOfText, .finish] p := by
  by_cases he : p.current.isEof = true
  · have hp : p.perform .endOfText = (p.take, .ok []) := by rw [perform, if_pos he]
    refine always_cons (fun _ t ht => ?_) ?_
    · rw [remaining_of_ok hp] at ht
      exact List.mem_singleton.1 ht
    · rw [remaining_of_ok hp]
      exact endsCall_finish _
  · refine always_cons (fun hend => absurd hend he) ?_
    rcases hp : p.perform .endOfText with ⟨p', ⟨e⟩ | ⟨more⟩⟩
    · rw [remaining_of_error hp]
      exact always_nil
    · rw [remaining_of_ok hp]
      rw [perform, if_neg he] at hp
      obtain ⟨rfl, rfl⟩ := reportThen_ok hp
      -- What is skipped up to the end is all before it.
      obtain ⟨n, q, hn, _⟩ := spends_skipRest (p.report _).1
      have hw := within_of_runs (leads_of_runWithin hn) (by simp [Step.inner])
      have hrest := endsCall_of_within hw (endsCall_take q)
      exact hrest

end Ends

/-! ## Units -/

/-- The end of the text is a leaf that was matched. -/
def EndMatched (p : Parser) : Prop := ⟨p.stream.eof, false⟩ ∈ p.tree.leaves

/-- The steps of a unit: some before the end of the text, then the end, which is
checked or known to be there, and a node that is closed. -/
inductive UnitSteps : List Step → Prop
  | checked (ss : List Step) : (∀ s ∈ ss, s.plain = true) → UnitSteps (ss ++ [.endOfText, .finish])
  | known (ss : List Step) : (∀ s ∈ ss, s.plain = true) → ss.any Step.reachesEnd = true →
      UnitSteps (ss ++ [.take 1, .finish])

section Units

variable {p q : Parser} {ss : List Step} {entry : Entry}

theorem exists_unitSteps (hu : entry.isUnit = true) :
    ∃ unit, entry.step = .decl unit ∧ ∀ v, UnitSteps (unit.expand v) := by
  cases entry with
  | compilationUnit =>
    refine ⟨_, rfl, fun v => .checked [.start .compilationUnit, .decl .declaration] ?_⟩
    simp [Step.plain]
  | triggerUnit =>
    refine ⟨_, rfl, fun v => .checked [.start .triggerUnit, .expect (.keyword .triggerKw),
      .expect .identifier, .expect (.keyword .onKw), .expect .identifier, .expect (.mark .lParen),
      .decl .triggerCase, .decl .moreTriggerCases, .expect (.mark .rParen),
      .decl .triggerBlock] ?_⟩
    simp [Step.plain, Expected.isReal, Expected.keyword, Expected.mark]
  | anonymousUnit =>
    refine ⟨_, rfl, fun v => .known [.start .anonymousUnit, .decl .anonymousMembers] ?_ rfl⟩
    simp [Step.plain]
  | statement | expression | literal | query | search => cases hu

theorem endMatched_take (h : AtEnd p) : EndMatched p.take := by
  have hc : p.current = p.stream.eof := TokenStream.nth_of_le h
  rw [EndMatched, tree_take, Builder.leaves_add, hc, stream_take]
  simp

/-- A token that is taken once all are read is the end of the text. -/
theorem endMatched_of_take (hs : ss.any Step.reachesEnd = true)
    (h : Runs (ss ++ [Step.take 1]) p q) : EndMatched q := by
  obtain ⟨p', h1, h2⟩ := h.split
  obtain rfl := h2.single rfl
  exact endMatched_take (h1.atEnd hs)

theorem endMatched_of_endOfText (h : Runs [.endOfText] p q) : EndMatched q := by
  obtain ⟨p', more, hp, hm⟩ := h.inv
  simp only [Parser.perform] at hp
  split at hp
  · cases hp
    cases hm
    exact endMatched_take (atEnd_of_isEof ‹_›)
  · obtain ⟨rfl, rfl⟩ := reportThen_ok hp
    have hrest : Runs ([Step.skipRest] ++ [Step.take 1]) _ q := hm
    exact endMatched_of_take rfl hrest

theorem EndMatched.finish (h : EndMatched p) (hf : Runs [.finish] p q) : EndMatched q := by
  obtain rfl := hf.single rfl
  simpa [EndMatched] using h

/-- A unit matches the end of the text. -/
theorem UnitSteps.endMatched (h : UnitSteps ss) (hr : Runs ss p q) : EndMatched q := by
  cases h with
  | checked ss _ =>
    obtain ⟨r, _, h1⟩ := hr.split
    have hend : Runs ([Step.endOfText] ++ [Step.finish]) r q := h1
    obtain ⟨_, h2, h3⟩ := hend.split
    exact (endMatched_of_endOfText h2).finish h3
  | known ss _ hend =>
    rw [show ss ++ [Step.take 1, .finish] = (ss ++ [Step.take 1]) ++ [Step.finish] by simp] at hr
    obtain ⟨_, h1, h2⟩ := hr.split
    exact (endMatched_of_take hend h1).finish h2

/-- A unit does nothing but close its node once the end of the text is matched. -/
theorem UnitSteps.endsCall (h : UnitSteps ss) (hr : Runs ss p q) : Always EndsCall ss p := by
  cases h with
  | checked ss hs =>
    obtain ⟨r, h1, _⟩ := hr.split
    exact endsCall_of_within (within_of_plain h1 hs) (endsCall_endOfText r)
  | known ss hs _ =>
    obtain ⟨r, h1, _⟩ := hr.split
    exact endsCall_of_within (within_of_plain h1 hs) (endsCall_take r)

theorem endMatched_of_unit (hu : entry.isUnit = true) (h : Runs [entry.step] p q) :
    EndMatched q := by
  obtain ⟨unit, hstep, hunit⟩ := exists_unitSteps hu
  rw [hstep] at h
  obtain ⟨p', more, hp, hm⟩ := h.inv
  cases hp
  exact (hunit _).endMatched hm

/-- In every call, nothing but closing of nodes is left behind the end of the
text. -/
theorem always_endsCall (p : Parser) (entry : Entry) : Always EndsCall [entry.step] p.fresh := by
  apply always_of_unheard EndsCall
  · intro s rest r h hend t ht
    rcases (perform_unheard r s).2 rest with heq | hnil
    · exact h hend t (heq ▸ ht)
    · rw [hnil] at ht
      cases ht
  · obtain ⟨q, hq⟩ := run_finished (p := p.unheard) rfl entry
    have hrun : Runs [entry.step] p.fresh.unheard q := leads_of_runWithin hq
    by_cases hu : entry.isUnit = true
    · obtain ⟨unit, hstep, hunit⟩ := exists_unitSteps hu
      rw [hstep] at hrun ⊢
      obtain ⟨p', more, hp, hm⟩ := hrun.inv
      cases hp
      refine always_cons (fun hend => hend.elim) ?_
      rw [remaining_of_ok rfl, List.append_nil]
      exact (hunit _).endsCall hm
    · have hinner : ∀ s ∈ [entry.step], s.inner = true := by
        intro s hs
        rw [List.mem_singleton.1 hs]
        cases entry <;> first | rfl | exact absurd rfl hu
      have hw := within_of_runs hrun hinner
      exact always_of_leads_all (fun _ _ _ hno hend => absurd hend hno) hw

end Units

end Parser

end ApexSyntax
