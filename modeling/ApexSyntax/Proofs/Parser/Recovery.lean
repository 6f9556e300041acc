-- Nothing is skipped silently. A part that reads nothing has reported something,
-- or leaves a recovering parser recovering; so wherever a token is skipped, an
-- error was reported and nothing was matched since.
import ApexSyntax.Proofs.Parser.Effort
import ApexSyntax.Proofs.Parser.Leaves

namespace ApexSyntax

/-- The step skips nothing that it has not complained about itself. -/
def Step.careful : Step → Bool
  | take _ | endOfText | decl _ => true
  | s => s.plain

theorem careful_of_plain {s : Step} (h : s.plain = true) : s.careful = true := by
  cases s <;> first | rfl | exact h

namespace Parser

/-- Steps that skip tokens only while the parser recovers. -/
abbrev Guarded : List Step → Parser → Parser → Prop :=
  Leads fun p s => SkipsAt p s → p.recovering = true

/-- When nothing was read, a parser that recovered still recovers, and an
essential step makes it recover. -/
structure Quiet (s : Step) (p q : Parser) : Prop where
  keeps : q.position = p.position → p.recovering = true → q.recovering = true
  essential : s.essential = true → q.position = p.position → q.recovering = true

theorem quiet_of_recovering {s : Step} {p q : Parser} (h : q.recovering = true) :
    Quiet s p q :=
  ⟨fun _ _ => h, fun _ _ => h⟩

theorem quiet_of_moved {s : Step} {p q : Parser} (h : q.position ≠ p.position) : Quiet s p q :=
  ⟨fun hpos _ => absurd hpos h, fun _ hpos => absurd hpos h⟩

/-- The law of recovery for one step. -/
def Careful (s : Step) (p q : Parser) : Prop :=
  s.careful = true ∨ s = .skipRest ∧ p.recovering = true →
    Guarded [s] p q ∧ (s.plain = true → Quiet s p q)

abbrev CarefulAll : List Step → Parser → Parser → Prop :=
  Chain fun s p q => Runs [s] p q ∧ Careful s p q

section Lists

variable {p p' q : Parser} {s : Step} {ss more : List Step}

theorem Guarded.single (hp : p.perform s = (p', .ok more)) (h : Guarded more p' q)
    (ha : SkipsAt p s → p.recovering = true) : Guarded [s] p q :=
  .perform ha hp h (.done q)

/-- A step that skips nothing by itself is guarded when what it leads to is. -/
theorem Guarded.ofPlain (hs : s.plain = true) (hp : p.perform s = (p', .ok more))
    (h : Guarded more p' q) : Guarded [s] p q := by
  refine .single hp h ?_
  cases s <;> first | exact False.elim | cases hs

/-- A run of one step is a run of the steps that it leads to. -/
theorem Leads.inv {allowed : Parser → Step → Prop} (h : Leads allowed [s] p q) :
    ∃ p' more, p.perform s = (p', .ok more) ∧ Leads allowed more p' q := by
  cases h with
  | perform _ hp hm hr =>
    cases hr
    exact ⟨_, _, hp, hm⟩

/-- A step that leads to no other steps ends where it leads. -/
theorem Leads.single {allowed : Parser → Step → Prop} (h : Leads allowed [s] p q)
    (hp : p.perform s = (p', .ok [])) : q = p' := by
  obtain ⟨p'', more, hp', hm⟩ := h.inv
  rw [hp] at hp'
  cases hp'
  cases hm
  rfl

theorem CarefulAll.moves (h : CarefulAll ss p q) : Moves p q :=
  h.fold Moves.refl (fun _ _ _ => Moves.trans) fun _ _ _ hc => hc.1.moves

/-- Careful steps are guarded one after the other. -/
theorem guarded_all (h : CarefulAll ss p q) (hs : ∀ s ∈ ss, s.careful = true) :
    Guarded ss p q := by
  induction ss generalizing p with
  | nil => cases h; exact .done _
  | cons s ss ih =>
    obtain ⟨p', ⟨_, hc⟩, h⟩ := h
    have h1 := (hc (.inl (hs s List.mem_cons_self))).1
    apply h1.append
    apply ih h
    intro t ht
    exact hs t (List.mem_cons_of_mem _ ht)

/-- Plain steps that read nothing leave a recovering parser recovering. -/
theorem recovering_all (h : CarefulAll ss p q) (hs : ss.all Step.plain = true)
    (hpos : q.position = p.position) (hr : p.recovering = true) : q.recovering = true := by
  induction ss generalizing p with
  | nil => cases h; exact hr
  | cons s ss ih =>
    obtain ⟨p', ⟨hrun, hc⟩, h⟩ := h
    rw [List.all_cons, Bool.and_eq_true] at hs
    have h1 := hrun.moves.position_le
    have h2 := (CarefulAll.moves h).position_le
    have hq := (hc (.inl (careful_of_plain hs.1))).2 hs.1
    exact ih h hs.2 (by omega) (hq.keeps (by omega) hr)

/-- Plain steps with an essential one among them read or report something. -/
theorem recovering_of_essential (h : CarefulAll ss p q) (hs : ss.all Step.plain = true)
    (he : ss.any Step.essential = true) (hpos : q.position = p.position) :
    q.recovering = true := by
  induction ss generalizing p with
  | nil => cases he
  | cons s ss ih =>
    obtain ⟨p', ⟨hrun, hc⟩, h⟩ := h
    rw [List.all_cons, Bool.and_eq_true] at hs
    rw [List.any_cons, Bool.or_eq_true] at he
    have h1 := hrun.moves.position_le
    have h2 := (CarefulAll.moves h).position_le
    rcases he with he | he
    · have hq := (hc (.inl (careful_of_plain hs.1))).2 hs.1
      exact recovering_all h hs.2 (by omega) (hq.essential he (by omega))
    · exact ih h hs.2 he (by omega)

end Lists

/-! ## Forms -/

section Forms

variable {p q : Parser} {x : Step} {ss : List Step}

/-- Behind a token that was read, no check for progress skips anything. -/
theorem guarded_behind {i : Nat} (h : CarefulAll ss p q) (hi : i < p.position)
    (hs : ∀ s ∈ ss, s.plain ∨ s = .progress i) : Guarded ss p q := by
  induction ss generalizing p with
  | nil => cases h; exact .done _
  | cons s ss ih =>
    obtain ⟨p', ⟨hrun, hc⟩, h⟩ := h
    have hle := hrun.moves.position_le
    have h2 : Guarded ss p' q := by
      apply ih h (by omega)
      intro t ht
      exact hs t (List.mem_cons_of_mem _ ht)
    rcases hs s List.mem_cons_self with hp | rfl
    · exact (hc (.inl (careful_of_plain hp))).1.append h2
    · have hp : p.perform (.progress i) = (p, .ok []) := by
        rw [Parser.perform, if_neg (by omega)]
      have hpp : p' = p := hrun.single hp
      rw [hpp] at h2
      exact .perform (fun hi' : p.position = i => by omega) hp (.done p) h2

/-- Steps that read a token first are guarded, and have moved on. -/
theorem guarded_behindFirst {rest : List Step} {i : Nat} (h : CarefulAll ss p q)
    (hf : behindFirst ss = some rest) (hv : p.lookahead.kind 0 ≠ .eof)
    (hs : ∀ s ∈ rest, s.plain ∨ s = .progress i) (hi : i ≤ p.position) :
    Guarded ss p q ∧ q.position ≠ p.position := by
  induction ss generalizing p with
  | nil => cases hf
  | cons s ss ih =>
    obtain ⟨p', ⟨hrun, _⟩, h⟩ := h
    cases s with
    | start r =>
      have hp : p.perform (.start r) = (p.build (·.start r), .ok []) := rfl
      obtain rfl := hrun.single hp
      obtain ⟨hg, hne⟩ := ih h hf hv hi
      exact ⟨.perform False.elim hp (.done _) hg, hne⟩
    | wrap mark r =>
      have hp : p.perform (.wrap mark r) = (p.build (·.wrap mark r), .ok []) := rfl
      obtain rfl := hrun.single hp
      obtain ⟨hg, hne⟩ := ih h hf hv hi
      exact ⟨.perform False.elim hp (.done _) hg, hne⟩
    | take n =>
      cases n with
      | zero => cases hf
      | succ n =>
        cases hf
        have hp : p.perform (.take (n + 1)) = (p.takeMany (n + 1), .ok []) := rfl
        obtain rfl := hrun.single hp
        have hne := position_takeMany_ne hv n
        have hle := hrun.moves.position_le
        have hle' := (CarefulAll.moves h).position_le
        refine ⟨.perform False.elim hp (.done _) (guarded_behind h (by omega) hs), by omega⟩
    | _ => cases hf

/-- One more turn of a list skips a token only when its items reported something. -/
theorem guarded_turn {items : List Step} (hv : p.lookahead.kind 0 ≠ .eof) (hx : x.plain = true)
    (hp : items.all Step.plain = true) (he : items.any Step.essential = true)
    (h : CarefulAll (items ++ [Step.progress p.position, x]) p q) :
    Guarded (items ++ [Step.progress p.position, x]) p q ∧ q.position ≠ p.position := by
  obtain ⟨p1, h1, p2, ⟨hrun, _⟩, p3, ⟨hrun', hc⟩, rfl⟩ := Chain.append_iff.1 h
  have hm := CarefulAll.moves h1
  have hg : Guarded items p p1 := by
    apply guarded_all h1
    intro s hs
    exact careful_of_plain (List.all_eq_true.1 hp s hs)
  have hperf : p1.perform (.progress p.position) =
      (if p1.position = p.position then p1.skip else p1, .ok []) := rfl
  have hp2 := hrun.single hperf
  have hlast := (hc (.inl (careful_of_plain hx))).1
  have hle := hm.position_le
  have hle' := hrun'.moves.position_le
  refine ⟨hg.append (.perform ?_ hperf (.done _) ?_), ?_⟩
  · intro hpos
    exact recovering_of_essential h1 hp he hpos
  · rw [← hp2]
    exact hlast
  · by_cases hpos : p1.position = p.position
    · have hne := position_skip_ne (p := p1) (by rwa [kind_of_position_eq hm hpos])
      rw [if_pos hpos] at hp2
      have hle1 := (moves_skip p1).position_le
      rw [hp2] at hle'
      omega
    · rw [if_neg hpos] at hp2
      rw [hp2] at hle'
      omega

/-- A statement that nothing can start is skipped after the complaint. -/
theorem guarded_refused {r : Rule} {c : Complaint}
    (h : CarefulAll [.start r, .complain c, .skip, .finish] p q) :
    Guarded [.start r, .complain c, .skip, .finish] p q ∧ q.recovering = true := by
  obtain ⟨p1, ⟨h1, _⟩, p2, ⟨h2, _⟩, p3, ⟨h3, _⟩, p4, ⟨h4, _⟩, rfl⟩ := h
  obtain ⟨p', more, hp, hm⟩ := h2.inv
  obtain ⟨rfl, rfl⟩ := reportThen_ok hp
  cases hm
  have hs : p.perform (.start r) = (p.build (·.start r), .ok []) := rfl
  obtain rfl := h1.single hs
  generalize hp2 : ((p.build (·.start r)).report _).1 = p2 at *
  have hr : p2.recovering = true := by rw [← hp2, recovering_report]
  have hk : p2.perform .skip = (p2.skip, .ok []) := rfl
  obtain rfl := h3.single hk
  have hf : p2.skip.perform .finish = (p2.skip.build (·.finish), .ok []) := rfl
  obtain rfl := h4.single hf
  refine ⟨?_, hr⟩
  refine .perform False.elim hs (.done _) (.perform False.elim hp (.done _) ?_)
  exact .perform (fun _ => hr) hk (.done _) (.perform False.elim hf (.done _) (.done _))

/-- What a part is replaced by is guarded, and quiet when the part is. -/
theorem guarded_form (hx : x.plain = true) (hf : Form p.lookahead x ss)
    (h : CarefulAll ss p q) : Guarded ss p q ∧ Quiet x p q := by
  cases hf with
  | calm hl =>
    simp only [lighter, Bool.and_eq_true, Bool.or_eq_true, Bool.not_eq_true',
      List.all_eq_true] at hl
    obtain ⟨⟨_, hall⟩, hess⟩ := hl
    have hplain : ss.all Step.plain = true :=
      List.all_eq_true.2 fun s hs => (hall s hs).1
    have hcareful : ∀ s ∈ ss, s.careful = true := by
      intro s hs
      exact careful_of_plain (hall s hs).1
    refine ⟨guarded_all h hcareful, ?_, ?_⟩
    · intro hpos hr
      exact recovering_all h hplain hpos hr
    · intro he hpos
      rcases hess with hno | hany
      · rw [hno] at he
        cases he
      · exact recovering_of_essential h hplain hany hpos
  | reads hv hb ht hr =>
    obtain ⟨hg, hne⟩ := guarded_behindFirst h hb hv hr (Nat.le_refl _)
    exact ⟨hg, quiet_of_moved hne⟩
  | turn items hv hw hloop hne ht hp he =>
    have hplain : items.all Step.plain = true := by
      rw [List.all_eq_true]
      intro s hs
      have hboth := List.all_eq_true.1 hp s hs
      rw [Bool.and_eq_true] at hboth
      exact hboth.1
    obtain ⟨hg, hne⟩ := guarded_turn hv hx hplain he h
    exact ⟨hg, quiet_of_moved hne⟩
  | refused hw =>
    obtain ⟨hg, hr⟩ := guarded_refused h
    exact ⟨hg, quiet_of_recovering hr⟩

end Forms

/-! ## The law of recovery -/

section Law

variable {p p' q : Parser} {s : Step} {more : List Step}

/-- An expected token is read, or reported as absent. -/
theorem careful_expect {e : Expected} {next : List Step} (hs : s.plain = true) (he : e.isReal)
    (hp : p.perform s = p.expect e next) (h : p.perform s = (p', .ok more))
    (hnext : ∀ t ∈ next, t.plain = true) (hm : CarefulAll more p' q) :
    Guarded [s] p q ∧ Quiet s p q := by
  have hle := (moves_perform h).position_le
  have hle' := (CarefulAll.moves hm).position_le
  rcases expect_ok (hp ▸ h) with ⟨ha, rfl, rfl⟩ | ⟨heof, _, ⟨m, rfl⟩, rfl⟩ | ⟨⟨m, rfl⟩, rfl⟩
  · have hne := position_take_ne (Expected.kind_ne_eof (v := p.lookahead) he ha)
    have hg := guarded_all hm fun t ht => careful_of_plain (hnext t ht)
    exact ⟨.ofPlain hs h hg, quiet_of_moved (by omega)⟩
  · obtain ⟨p2, ⟨h2, _⟩, p3, ⟨h3, _⟩, h4⟩ := hm
    have hk : (p.report m).1.perform .skip = ((p.report m).1.skip, .ok []) := rfl
    obtain rfl := h2.single hk
    have ht : (p.report m).1.skip.perform (.take 1) =
        ((p.report m).1.skip.takeMany 1, .ok []) := rfl
    obtain rfl := h3.single ht
    have hg := guarded_all h4 fun t ht => careful_of_plain (hnext t ht)
    have hne : (p.report m).1.skip.position ≠ (p.report m).1.position := by
      refine position_skip_ne ?_
      rw [kind_of_position_eq (moves_report p m) (position_report p m), kind_lookahead]
      simpa [Token.isEof] using heof
    have h5 := (moves_skip (p.report m).1).position_le
    have h6 := h3.moves.position_le
    have h7 := (CarefulAll.moves h4).position_le
    refine ⟨.ofPlain hs h ?_, quiet_of_moved (by omega)⟩
    exact .perform (fun _ => recovering_report p m) hk (.done _)
      (.perform False.elim ht (.done _) hg)
  · cases hm
    exact ⟨.ofPlain hs h (.done _), quiet_of_recovering (recovering_report p m)⟩

theorem careful_part (hs : s.plain = true) (h : p.perform s = (p, .ok more))
    (hf : Form p.lookahead s more) (hm : CarefulAll more p q) :
    Guarded [s] p q ∧ (s.plain = true → Quiet s p q) := by
  obtain ⟨hg, hq⟩ := guarded_form hs hf hm
  exact ⟨.ofPlain hs h hg, fun _ => hq⟩

/-- Every step keeps to the law of recovery when the steps that it leads to do. -/
theorem careful_perform (h : p.perform s = (p', .ok more)) (hm : CarefulAll more p' q) :
    Careful s p q := by
  intro hs
  cases s with
  | start _ | wrap _ _ | finish =>
    cases h
    cases hm
    exact ⟨.ofPlain rfl rfl (.done _), fun _ => ⟨fun _ hr => hr, fun he => absurd he Bool.false_ne_true⟩⟩
  | takeIf m =>
    have hp := h
    cases h
    cases hm
    refine ⟨.ofPlain rfl hp (.done _), fun _ =>
      ⟨fun hpos hr => ?_, fun he => absurd he Bool.false_ne_true⟩⟩
    by_cases ha : p.lookahead.atMark m = true
    · rw [if_pos ha] at hpos
      refine absurd hpos (position_take_ne fun hv => ?_)
      rw [Lookahead.atMark_of_eof hv] at ha
      cases ha
    · rw [if_neg ha]
      exact hr
  | take n =>
    cases h
    cases hm
    exact ⟨.single rfl (.done _) False.elim, fun hp => absurd hp Bool.false_ne_true⟩
  | skip | progress _ =>
    rcases hs with hs | ⟨hs, _⟩
    · cases hs
    · cases hs
  | expect e =>
    rcases hs with hs | ⟨hs, _⟩
    · obtain ⟨hg, hq⟩ := careful_expect hs hs rfl h (by simp) hm
      exact ⟨hg, fun _ => hq⟩
    · cases hs
  | expectThen e next =>
    rcases hs with hs | ⟨hs, _⟩
    · have hp : e.isReal = true ∧ next.plain = true := by
        simpa [Step.careful, Step.plain] using hs
      obtain ⟨hg, hq⟩ := careful_expect hs hp.1 rfl h (by simpa using hp.2) hm
      exact ⟨hg, fun _ => hq⟩
    · cases hs
  | complain c =>
    have hp := h
    obtain ⟨rfl, rfl⟩ := reportThen_ok h
    cases hm
    exact ⟨.ofPlain rfl hp (.done _), fun _ => quiet_of_recovering (recovering_report p _)⟩
  | endOfText =>
    have hp := h
    refine ⟨.single hp ?_ False.elim, fun hp => absurd hp Bool.false_ne_true⟩
    simp only [Parser.perform] at h
    split at h
    · cases h
      cases hm
      exact .done _
    · obtain ⟨rfl, rfl⟩ := reportThen_ok h
      obtain ⟨p2, ⟨_, h2⟩, p3, ⟨_, h3⟩, rfl⟩ := hm
      have hrest := (h2 (.inr ⟨rfl, recovering_report p _⟩)).1
      exact hrest.append (h3 (.inl rfl)).1
  | skipRest =>
    rcases hs with hs | ⟨_, hr⟩
    · cases hs
    · have hp := h
      refine ⟨.single hp ?_ fun _ => hr, fun hp => absurd hp Bool.false_ne_true⟩
      simp only [Parser.perform] at h
      split at h
      · cases h
        cases hm
        exact .done _
      · cases h
        obtain ⟨p2, ⟨_, h2⟩, rfl⟩ := hm
        exact (h2 (.inr ⟨rfl, hr⟩)).1
  | typ part => cases h; exact careful_part rfl rfl part.form hm
  | expr part => cases h; exact careful_part rfl rfl (part.form _) hm
  | soql part => cases h; exact careful_part rfl rfl part.form hm
  | stmt part => cases h; exact careful_part rfl rfl part.form hm
  | decl part =>
    by_cases hplain : (Step.decl part).plain = true
    · cases h
      exact careful_part hplain rfl (part.form hplain) hm
    · refine ⟨.single h (guarded_all hm ?_) False.elim, fun hp => absurd hp hplain⟩
      cases h
      cases part with
      | compilationUnit | triggerUnit | anonymousUnit =>
        simp [DeclPart.expand, Step.careful, Step.plain, Expected.isReal, Expected.keyword,
          Expected.mark]
      | _ => exact absurd rfl hplain

/-- In every run of an entry, tokens are skipped only while the parser recovers. -/
theorem guarded_entry {entry : Entry} (h : Runs [entry.step] p q) : Guarded [entry.step] p q := by
  obtain ⟨q, ⟨_, hc⟩, rfl⟩ := h.chain fun hp _ hm => careful_perform hp hm
  refine (hc (.inl ?_)).1
  cases entry <;> rfl

end Law

/-! ## Runs without a report -/

/-- The number of leaves so far that were skipped. -/
def skippedCount (p : Parser) : Nat := p.tree.leaves.countP Leaf.isSkipped

/-- As long as nothing is reported, the parser does not recover, and no leaf is
skipped. -/
structure Silent (p q : Parser) : Prop where
  errorCount_le : p.errorCount ≤ q.errorCount
  keeps : p.recovering = false → q.errorCount = p.errorCount →
    q.recovering = false ∧ q.skippedCount = p.skippedCount

section Silent

variable {p q r : Parser}

theorem Silent.refl (p : Parser) : Silent p p := ⟨Nat.le_refl _, fun h _ => ⟨h, rfl⟩⟩

theorem Silent.trans (h : Silent p q) (h' : Silent q r) : Silent p r := by
  have h1 := h.errorCount_le
  have h2 := h'.errorCount_le
  refine ⟨by omega, ?_⟩
  intro hr he
  obtain ⟨hq, hc⟩ := h.keeps hr (by omega)
  obtain ⟨hr', hc'⟩ := h'.keeps hq (by omega)
  exact ⟨hr', hc'.trans hc⟩

/-- Steps that report nothing, skip nothing and keep the leaves. -/
theorem silent_of_eq (he : q.errorCount = p.errorCount)
    (hr : p.recovering = false → q.recovering = false)
    (hl : q.skippedCount = p.skippedCount) : Silent p q :=
  ⟨Nat.le_of_eq he.symm, fun h _ => ⟨hr h, hl⟩⟩

theorem silent_report (p : Parser) (message : String) : Silent p (p.report message).1 := by
  refine ⟨(moves_report p message).errorCount_le, ?_⟩
  intro hr he
  rw [errorCount_report, hr] at he
  simp at he

theorem silent_kept : Kept Silent where
  refl := .refl
  trans := .trans
  take p := silent_of_eq rfl (fun _ => rfl) (by simp [skippedCount])
  report := silent_report
  start p _ := silent_of_eq rfl id (by simp [skippedCount])
  wrap p _ _ := silent_of_eq rfl id (by simp [skippedCount])
  finish p := silent_of_eq rfl id (by simp [skippedCount])

/-- A guarded run that reports nothing skips nothing. -/
theorem silent_of_guarded {ss : List Step} (h : Guarded ss p q) : Silent p q := by
  apply h.keeps Silent.refl (fun _ _ _ => Silent.trans)
  intro s p p' more ha hp
  apply silent_kept.perform hp
  intro hskip
  have hr := ha hskip
  exact ⟨Nat.le_refl _, fun hn => by rw [hr] at hn; cases hn⟩

end Silent

end Parser

end ApexSyntax
