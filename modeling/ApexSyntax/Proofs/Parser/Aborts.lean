-- What a call leaves behind that a listener cuts short. The parser stands at the token that
-- the error is about, everybody before the listener that throws has heard just this error,
-- and nothing else of the call is left: the next calls are those of a new parser that is
-- placed at the same token.
import ApexSyntax.Proofs.Parser.History
import ApexSyntax.Proofs.Parser.Lossless

namespace ApexSyntax

namespace Parser

/-! ## Up to the error -/

section Throws

variable {p p' q : Parser} {s : Step} {ss more : List Step} {e : SyntaxError}

/-- A report does not go on when a listener throws and the parser does not recover. -/
theorem reportThen_ne_ok (hl : Listener.stopsAt p.listeners = true) (hr : p.recovering = false)
    {message : String} {steps : List Step} : p.reportThen message steps ≠ (p', .ok more) := by
  intro h
  simp [reportThen, report, hr, hl] at h

theorem quietly_of_expect (hl : Listener.stopsAt p.listeners = true) (hr : p.recovering = false)
    {x : Expected} {next : List Step} (h : p.expect x next = (p', .ok more)) : Quietly p p' := by
  simp only [expect] at h
  split at h
  · cases h
    exact .take p
  · split at h <;> exact absurd h (reportThen_ne_ok hl hr)

/-- Where a listener throws, a step that does not throw reports nothing. -/
theorem quietly_of_perform (hl : Listener.stopsAt p.listeners = true)
    (hr : p.recovering = false) (h : p.perform s = (p', .ok more)) : Quietly p p' := by
  cases s with
  | start r => cases h; exact .build p _
  | wrap mark r => cases h; exact .build p _
  | finish => cases h; exact .build p _
  | take n => cases h; exact .takeMany p n
  | takeIf m =>
    cases h
    split
    · exact .take p
    · exact .refl p
  | skip => cases h; exact .skip p
  | progress since =>
    cases h
    split
    · exact .skip p
    · exact .refl p
  | expect x => exact quietly_of_expect hl hr h
  | expectThen x next => exact quietly_of_expect hl hr h
  | complain c => exact absurd h (reportThen_ne_ok hl hr)
  | endOfText =>
    simp only [perform] at h
    split at h
    · cases h
      exact .take p
    · exact absurd h (reportThen_ne_ok hl hr)
  | skipRest =>
    simp only [perform] at h
    split at h <;> cases h
    · exact .refl p
    · exact .skip p
  | typ | expr | soql | stmt | decl => cases h; exact .refl p

/-- What a report gives back was thrown by a listener. -/
theorem report_some {message : String} (h : p.report message = (q, some e)) :
    Listener.stopsAt p.listeners = true ∧ p.recovering = false ∧ e = p.errorHere message := by
  unfold report at h
  split at h
  · cases h
  · rename_i hr
    split at h <;> rename_i hl <;> cases h
    exact ⟨hl, Bool.eq_false_iff.2 hr, rfl⟩

theorem stopsAt_of_thrown {n : Nat} (h : runWithin n ss p = (q, .thrown e)) :
    Listener.stopsAt p.listeners = true := by
  induction n generalizing ss p with
  | zero => cases ss <;> cases h
  | succ n ih =>
    cases ss with
    | nil => cases h
    | cons s ss =>
      rw [runWithin] at h
      split at h
      · rename_i hp
        rw [← (moves_perform hp).stops]
        exact ih h
      · rename_i hp
        cases h
        obtain ⟨message, hm⟩ := perform_error hp
        exact (report_some hm).1

/-- A run that is cut short is quiet up to the report that is thrown. -/
theorem exists_report_of_thrown {n : Nat} (h : runWithin n ss p = (q, .thrown e))
    (hr : p.recovering = false) :
    ∃ r message, Quietly p r ∧ r.report message = (q, some e) := by
  have hl := stopsAt_of_thrown h
  induction n generalizing ss p with
  | zero => cases ss <;> cases h
  | succ n ih =>
    cases ss with
    | nil => cases h
    | cons s ss =>
      rw [runWithin] at h
      split at h
      · rename_i hp
        have hquiet := quietly_of_perform hl hr hp
        obtain ⟨r, message, hq, hm⟩ := ih h (hquiet.recovering hr) (by rw [hquiet.listeners, hl])
        exact ⟨r, message, hquiet.trans hq, hm⟩
      · rename_i hp
        cases h
        obtain ⟨message, hm⟩ := perform_error hp
        exact ⟨p, message, .refl p, hm⟩

end Throws

/-- A parser after a call that an error has cut short. -/
structure Aborted (p : Parser) (e : SyntaxError) (q : Parser) : Prop where
  stream : q.stream = p.stream
  /-- The error is about the token where the parser stands. -/
  place : e.place = q.current.place
  errorCount : q.errorCount = p.errorCount + 1
  /-- The listeners before the first one that throws have heard this error and nothing else,
  and those behind it have heard nothing. -/
  heard : ∃ before behind, p.listeners = before ++ .throwing :: behind ∧
    Listener.stopsAt before = false ∧
    q.listeners = before.map (Listener.hear e) ++ .throwing :: behind

theorem aborted_of_report {p r q : Parser} {message : String} {e : SyntaxError}
    (hq : Quietly p r) (hm : r.report message = (q, some e)) : Aborted p e q := by
  obtain ⟨hl, hr, rfl⟩ := report_some hm
  obtain rfl : (r.report message).1 = q := congrArg Prod.fst hm
  obtain ⟨before, behind, hls, hbefore, hheard⟩ :=
    Listener.exists_hearAll_eq hl (r.errorHere message)
  have hlisteners : (r.report message).1.listeners =
      Listener.hearAll (r.errorHere message) r.listeners := by
    simp [report, hr]
  exact {
    stream := (stream_report r message).trans hq.stream
    place := by rw [current_eq, stream_report, position_report]; rfl
    errorCount := by rw [errorCount_report, hr, ← hq.errorCount]; rfl
    heard := ⟨before, behind, by rw [← hq.listeners, hls], hbefore, hlisteners.trans hheard⟩ }

theorem run_of_parse_error {p q : Parser} {entry : Entry} {e : SyntaxError}
    (h : p.parse entry = (q, .error e)) : p.run entry = (q, .thrown e) := by
  unfold parse at h
  split at h
  · rename_i hrun
    cases h
    exact hrun
  · cases h

/-! ## Errors that were counted before -/

/-- The parser with more errors counted. -/
def counted (p : Parser) (k : Nat) : Parser := { p with errorCount := p.errorCount + k }

section Counted

variable (p : Parser) (k : Nat)

theorem report_counted (message : String) :
    (p.counted k).report message = ((p.report message).1.counted k, (p.report message).2) := by
  by_cases hr : p.recovering = true
  · simp [report, counted, hr]
  · simp [report, counted, hr, Nat.add_right_comm, errorHere, current, lookahead]

theorem reportThen_counted (message : String) (steps : List Step) :
    (p.counted k).reportThen message steps =
      ((p.reportThen message steps).1.counted k, (p.reportThen message steps).2) := by
  unfold reportThen
  rw [report_counted]
  rcases p.report message with ⟨q, _ | e⟩ <;> rfl

theorem takeMany_counted (n : Nat) : (p.counted k).takeMany n = (p.takeMany n).counted k := by
  induction n generalizing p with
  | zero => rfl
  | succ n ih => exact ih p.take

@[simp] theorem current_counted : (p.counted k).current = p.current := rfl

@[simp] theorem lookahead_counted : (p.counted k).lookahead = p.lookahead := rfl

@[simp] theorem position_counted : (p.counted k).position = p.position := rfl

theorem expect_counted (x : Expected) (next : List Step) :
    (p.counted k).expect x next = ((p.expect x next).1.counted k, (p.expect x next).2) := by
  rw [expect, current_counted, lookahead_counted, expect]
  by_cases ha : x.accepts p.current = true
  · rw [if_pos ha, if_pos ha]
    rfl
  · rw [if_neg ha, if_neg ha]
    by_cases hd : (!p.current.isEof && x.accepts (p.lookahead.nth 1)) = true
    · rw [if_pos hd, if_pos hd]
      exact reportThen_counted p k _ _
    · rw [if_neg hd, if_neg hd]
      exact reportThen_counted p k _ _

/-- The number of errors before decides nothing. -/
theorem perform_counted (s : Step) :
    (p.counted k).perform s = ((p.perform s).1.counted k, (p.perform s).2) := by
  cases s with
  | take n => exact congrArg (·, _) (takeMany_counted p k n)
  | takeIf m =>
    rw [perform, lookahead_counted, perform]
    by_cases hm : p.lookahead.atMark m = true
    · rw [if_pos hm, if_pos hm]
      rfl
    · rw [if_neg hm, if_neg hm]
  | progress since =>
    rw [perform, position_counted, perform]
    by_cases hp : p.position = since
    · rw [if_pos hp, if_pos hp]
      rfl
    · rw [if_neg hp, if_neg hp]
  | expect x => exact expect_counted p k x _
  | expectThen x next => exact expect_counted p k x _
  | complain c => exact reportThen_counted p k _ _
  | endOfText =>
    rw [perform, current_counted, perform]
    by_cases he : p.current.isEof = true
    · rw [if_pos he, if_pos he]
      rfl
    · rw [if_neg he, if_neg he]
      exact reportThen_counted p k _ _
  | skipRest =>
    rw [perform, current_counted, perform]
    by_cases he : p.current.isEof = true
    · rw [if_pos he, if_pos he]
    · rw [if_neg he, if_neg he]
      rfl
  | start | wrap | finish | skip | typ | expr | soql | stmt | decl => rfl

theorem runWithin_counted (n : Nat) (ss : List Step) :
    runWithin n ss (p.counted k) = ((runWithin n ss p).1.counted k, (runWithin n ss p).2) := by
  induction n generalizing ss p with
  | zero => cases ss <;> rfl
  | succ n ih =>
    cases ss with
    | nil => rfl
    | cons s ss =>
      rw [runWithin, runWithin, perform_counted]
      rcases p.perform s with ⟨q, e | more⟩
      · rfl
      · exact ih q (more ++ ss)

theorem parse_counted (entry : Entry) :
    (p.counted k).parse entry = ((p.parse entry).1.counted k, (p.parse entry).2) := by
  have hrun : (p.counted k).run entry = ((p.run entry).1.counted k, (p.run entry).2) :=
    runWithin_counted p.fresh k p.fuel [entry.step]
  unfold parse
  rw [hrun]
  rcases p.run entry with ⟨q, _ | e | _⟩ <;> rfl

end Counted

/-! ## The next calls -/

/-- A new parser over some tokens, placed at one of them. -/
def placed (stream : TokenStream) (position : Nat) (listeners : List Listener) : Parser :=
  { ofStream stream with position, listeners }

/-- A new parser in the place of another one. -/
abbrev renewed (p : Parser) : Parser := placed p.stream p.position p.listeners

/-- Calls one entry after the other, also behind an error that is thrown: what all calls
return, and the parser behind them. -/
def parseEach (p : Parser) : List Entry → Parser × List (Except SyntaxError Tree)
  | [] => (p, [])
  | entry :: rest =>
    let (q, result) := p.parse entry
    let (r, results) := q.parseEach rest
    (r, result :: results)

/-- A call sees nothing of a parser but its tokens, its place and its listeners. It adds to
the errors that were counted. -/
theorem parse_eq_renewed (p : Parser) (entry : Entry) :
    p.parse entry =
      ((p.renewed.parse entry).1.counted p.errorCount, (p.renewed.parse entry).2) := by
  have hfresh : (p.renewed.counted p.errorCount).fresh = p.fresh := by
    simp [fresh, counted, placed, ofStream]
  have hrun : p.run entry = (p.renewed.counted p.errorCount).run entry := by
    have h : (p.renewed.counted p.errorCount).run entry =
        runWithin p.fuel [entry.step] (p.renewed.counted p.errorCount).fresh := rfl
    rw [h, hfresh]
    rfl
  rw [← parse_counted, parse, parse, hrun]

theorem parseEach_counted (p : Parser) (k : Nat) (calls : List Entry) :
    (p.counted k).parseEach calls =
      ((p.parseEach calls).1.counted k, (p.parseEach calls).2) := by
  induction calls generalizing p with
  | nil => rfl
  | cons entry rest ih =>
    rw [parseEach, parse_counted]
    dsimp only
    rw [ih]
    rfl

/-- Any calls return what they return from a new parser in the same place. -/
theorem parseEach_eq_renewed (p : Parser) (calls : List Entry) :
    (p.parseEach calls).2 = (p.renewed.parseEach calls).2 ∧
      (p.parseEach calls).1.renewed = (p.renewed.parseEach calls).1.renewed ∧
      (p.parseEach calls).1.errorCount =
        (p.renewed.parseEach calls).1.errorCount + p.errorCount := by
  cases calls with
  | nil => exact ⟨rfl, rfl, (Nat.zero_add p.errorCount).symm⟩
  | cons entry rest =>
    have hcalls : p.parseEach (entry :: rest) =
        ((p.renewed.parseEach (entry :: rest)).1.counted p.errorCount,
          (p.renewed.parseEach (entry :: rest)).2) := by
      rw [parseEach, parse_eq_renewed]
      dsimp only
      rw [parseEach_counted]
      rfl
    rw [hcalls]
    exact ⟨rfl, rfl, rfl⟩

/-- A call that a listener cuts short leaves the parser at the token of the error, which is
counted once and heard by the listeners before. Whatever is called from then on returns
what a new parser over the same tokens returns, with these listeners and in this place;
it leaves the same behind, and counts its errors on top. -/
theorem aborted_of_error {p q : Parser} {entry : Entry} {e : SyntaxError}
    (h : p.parse entry = (q, .error e)) :
    Aborted p e q ∧ ∀ calls,
      let r := placed p.stream q.position q.listeners
      (q.parseEach calls).2 = (r.parseEach calls).2 ∧
        (q.parseEach calls).1.renewed = (r.parseEach calls).1.renewed ∧
        (q.parseEach calls).1.errorCount = (r.parseEach calls).1.errorCount + q.errorCount := by
  obtain ⟨r, message, hquiet, hm⟩ := exists_report_of_thrown (p := p.fresh)
    (run_of_parse_error h) rfl
  have hfresh : Aborted p.fresh e q := aborted_of_report hquiet hm
  have haborted : Aborted p e q :=
    ⟨hfresh.stream, hfresh.place, hfresh.errorCount, hfresh.heard⟩
  refine ⟨haborted, fun calls => ?_⟩
  rw [← haborted.stream]
  exact parseEach_eq_renewed q calls

/-- The semicolon, with listeners before and behind one that throws. -/
def atSemicolonStrict : Parser := (atSemicolon.addListener .throwing).addListener .counter

theorem aborted_atSemicolon : ∃ q e, atSemicolonStrict.parse .expression = (q, .error e) ∧
    Aborted atSemicolonStrict e q ∧
      (q.parseEach [.statement]).2 =
        ((placed atSemicolonStrict.stream q.position q.listeners).parseEach [.statement]).2 := by
  have hfails : (atSemicolonStrict.parse .expression).2.toOption.isNone = true := by
    decide +kernel
  rcases hparse : atSemicolonStrict.parse .expression with ⟨q, e | tree⟩
  · obtain ⟨haborted, hnext⟩ := aborted_of_error hparse
    exact ⟨q, e, rfl, haborted, (hnext [.statement]).1⟩
  · rw [hparse] at hfails
    cases hfails

end Parser

end ApexSyntax
