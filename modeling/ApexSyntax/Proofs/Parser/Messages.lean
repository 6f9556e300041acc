-- Messages that stay on one line. A message quotes what stands in the text only with its line
-- breaks and tabs spelled out, and what a step names by itself has none. So whatever is read,
-- listeners hear of no message with a line break in it.
import ApexSyntax.Proofs.Lexer.Reading
import ApexSyntax.Proofs.Parser.Aborts
import ApexSyntax.Proofs.Parser.Parts
import ApexSyntax.Proofs.Text.Lines

namespace ApexSyntax

open Text

/-! ## Names in messages -/

theorem Token.isOneLine_quoted (t : Token) : isOneLine t.quoted = true :=
  isOneLine_quotes (isOneLine_oneLine t.text)

theorem Keyword.isOneLine_word (k : Keyword) : isOneLine k.word = true := by
  have hall : ∀ k ∈ all, isOneLine k.word = true := by decide +kernel
  exact hall k k.mem_all

theorem Mark.isOneLine_spelling (m : Mark) : isOneLine m.spelling = true := by
  have hall : ∀ m ∈ all, isOneLine m.spelling = true := by decide +kernel
  exact hall m m.mem_all

theorem Kind.isOneLine_display (k : Kind) : isOneLine k.display = true := by
  cases k with
  | eof | blank | comment | identifier => decide +kernel
  | literal form => cases form <;> decide +kernel
  | keyword k => exact isOneLine_quotes k.isOneLine_word
  | mark m => exact isOneLine_quotes m.isOneLine_spelling

/-! ## What steps name -/

/-- Where a word is expected by its spelling, the spelling stays on one line. -/
def Expected.isOneLine : Expected → Bool
  | spelled w => Text.isOneLine w
  | _ => true

/-- What the step names in its messages stays on one line. -/
def Step.isOneLine : Step → Bool
  | expect e => e.isOneLine
  | expectThen e next => e.isOneLine && next.isOneLine
  | complain (.mismatch expected) => Text.isOneLine expected
  | _ => true

theorem Expected.isOneLine_display {e : Expected} (h : e.isOneLine = true) :
    Text.isOneLine e.display = true := by
  cases e with
  | kind k => exact k.isOneLine_display
  | identifier | word => decide +kernel
  | spelled w => exact isOneLine_quotes h

section Parts

variable {v : Lookahead}

theorem TypePart.all_isOneLine (p : TypePart) : (p.expand v).all Step.isOneLine = true := by
  cases p <;> simp only [expand] <;> repeat' split
  all_goals rfl

theorem QueryPart.all_isOneLine (p : QueryPart) : (p.expand v).all Step.isOneLine = true := by
  cases p <;> simp only [expand, clause, selectEntrySteps, valueSteps] <;> repeat' split
  all_goals rfl

theorem StmtPart.all_isOneLine (p : StmtPart) : (p.expand v).all Step.isOneLine = true := by
  cases p <;> simp only [expand, untilBrace, statementSteps, dmlSteps, loopControlSteps,
    whenValueSteps] <;> repeat' split
  all_goals rfl

theorem DeclPart.all_isOneLine (p : DeclPart) : (p.expand v).all Step.isOneLine = true := by
  cases p <;> simp only [expand, untilBrace, memberSteps, classMemberSteps,
    annotationValueSteps] <;> repeat' split
  all_goals rfl

theorem ExprPart.all_isOneLine (p : ExprPart) (mark : Nat) :
    (p.expand v mark).all Step.isOneLine = true := by
  cases p with
  | primary =>
    exact primarySteps_cases (P := fun ss =>
      (Step.start .primaryExpression :: ss ++ [Step.finish]).all Step.isOneLine = true) v
      rfl rfl rfl rfl rfl rfl rfl rfl rfl
  | _ =>
    simp only [expand, rightOperand, unarySteps, callSteps, initializerSteps]
    repeat' split
    all_goals rfl

end Parts

theorem Entry.isOneLine_step (entry : Entry) : entry.step.isOneLine = true := by
  cases entry <;> rfl

/-! ## What is told -/

/-- Listeners hear some errors, as many as are counted. -/
structure Told (ls : List Listener) (count : Nat) (es : List SyntaxError)
    (ls' : List Listener) (count' : Nat) : Prop where
  listeners : ls' = Listener.hearEach es ls
  errorCount : count' = count + es.length
  oneLine : ∀ e ∈ es, isOneLine e.message = true

namespace Told

variable {ls ls' ls'' : List Listener} {n n' n'' : Nat} {es fs : List SyntaxError}

theorem nil (ls : List Listener) (n : Nat) : Told ls n [] ls n := ⟨rfl, rfl, nofun⟩

theorem single {e : SyntaxError} (h : isOneLine e.message = true) (ls : List Listener) (n : Nat) :
    Told ls n [e] (Listener.hearAll e ls) (n + 1) :=
  ⟨rfl, rfl, fun _ hd => List.mem_singleton.1 hd ▸ h⟩

theorem append (h : Told ls n es ls' n') (h' : Told ls' n' fs ls'' n'') :
    Told ls n (es ++ fs) ls'' n'' where
  listeners := by rw [h'.listeners, h.listeners, Listener.hearEach_append]
  errorCount := by rw [h'.errorCount, h.errorCount, List.length_append, Nat.add_assoc]
  oneLine := fun e he => (List.mem_append.1 he).elim (h.oneLine e) (h'.oneLine e)

end Told

/-! ## Lexers -/

namespace Lexer

theorem isOneLine_unreadableError (l : Lexer) (n : Nat) :
    isOneLine (l.unreadableError n).message = true :=
  isOneLine_append (isOneLine_append (by decide +kernel) (isOneLine_oneLine _)) (by decide +kernel)

/-- Up to the next token, and when it throws, a lexer tells errors of one line. -/
theorem exists_told_nextWithin (fuel : Nat) (l : Lexer) : ∃ es,
    Told l.listeners l.errorCount es
      (l.nextWithin fuel).1.listeners (l.nextWithin fuel).1.errorCount ∧
    ∀ e, (l.nextWithin fuel).2 = .error e → e ∈ es := by
  have hquiet (t : Token) (e : SyntaxError) (he : Except.ok t = .error e) :
      e ∈ ([] : List SyntaxError) := by
    cases he
  induction fuel generalizing l with
  | zero => exact ⟨[], .nil _ _, hquiet _⟩
  | succ fuel ih =>
    rw [nextWithin]
    split
    · exact ⟨[], .nil _ _, hquiet _⟩
    · split
      · exact ⟨[], .nil _ _, hquiet _⟩
      · rename_i shown skipped _
        have hone : Told l.listeners l.errorCount [l.unreadableError shown]
            ((l.skip skipped).report (l.unreadableError shown)).listeners
            ((l.skip skipped).report (l.unreadableError shown)).errorCount :=
          .single (l.isOneLine_unreadableError shown) _ _
        split
        · refine ⟨_, hone, fun e he => ?_⟩
          cases he
          exact List.mem_singleton_self _
        · obtain ⟨es, htold, hthrown⟩ := ih ((l.skip skipped).report (l.unreadableError shown))
          exact ⟨_, hone.append htold, fun e he => List.mem_append_right _ (hthrown e he)⟩

theorem exists_told_next (l : Lexer) : ∃ es,
    Told l.listeners l.errorCount es l.next.1.listeners l.next.1.errorCount ∧
    ∀ e, l.next.2 = .error e → e ∈ es :=
  l.exists_told_nextWithin l.reader.left

/-- So does a lexer that is called again and again. -/
theorem exists_told_callsWithin (fuel : Nat) (l : Lexer) : ∃ es,
    Told l.listeners l.errorCount es
      (l.callsWithin fuel).2.listeners (l.callsWithin fuel).2.errorCount := by
  induction fuel generalizing l with
  | zero => exact ⟨[], .nil _ _⟩
  | succ fuel ih =>
    obtain ⟨es, htold, -⟩ := l.exists_told_next
    rw [callsWithin]
    rcases hnext : l.next with ⟨l', e | t⟩
    · rw [hnext] at htold
      exact ⟨es, htold⟩
    · rw [hnext] at htold
      dsimp only
      split
      · exact ⟨es, htold⟩
      · obtain ⟨fs, hrest⟩ := ih l'
        exact ⟨es ++ fs, htold.append hrest⟩

end Lexer

/-! ## Parsers -/

namespace Parser

section Messages

variable (t : Token) {expected : String} {e : Expected}

theorem isOneLine_mismatchMessage (h : isOneLine expected = true) :
    isOneLine (mismatchMessage t expected) = true :=
  isOneLine_append (isOneLine_append (isOneLine_append (by decide +kernel) t.isOneLine_quoted)
    (by decide +kernel)) h

theorem isOneLine_extraneousMessage (h : isOneLine expected = true) :
    isOneLine (extraneousMessage t expected) = true :=
  isOneLine_append (isOneLine_append (isOneLine_append (by decide +kernel) t.isOneLine_quoted)
    (by decide +kernel)) h

theorem isOneLine_missingMessage (h : isOneLine expected = true) :
    isOneLine (missingMessage t expected) = true :=
  isOneLine_append (isOneLine_append (isOneLine_append (by decide +kernel) h)
    (by decide +kernel)) t.isOneLine_quoted

theorem isOneLine_complaintMessage {c : Complaint} (h : (Step.complain c).isOneLine = true) :
    isOneLine (complaintMessage t c) = true := by
  cases c with
  | noAlternative => exact isOneLine_append (by decide +kernel) t.isOneLine_quoted
  | mismatch expected => exact isOneLine_mismatchMessage t h

theorem isOneLine_absentMessage (h : e.isOneLine = true) :
    isOneLine (absentMessage t e) = true := by
  unfold absentMessage
  split
  · exact isOneLine_missingMessage t (Expected.isOneLine_display h)
  · exact isOneLine_mismatchMessage t (Expected.isOneLine_display h)

end Messages

/-- What a step tells. Its messages stay on one line, and so do those of the steps that it
leads to. An error that it throws was told. -/
structure StepTold (p : Parser) (r : Parser × Outcome) (es : List SyntaxError) : Prop where
  told : Told p.listeners p.errorCount es r.1.listeners r.1.errorCount
  more : ∀ steps, r.2 = .ok steps → steps.all Step.isOneLine = true
  thrown : ∀ e, r.2 = .error e → e ∈ es

variable {p q : Parser}

theorem stepTold_quietly {steps : List Step} (hl : q.listeners = p.listeners)
    (hc : q.errorCount = p.errorCount) (h : steps.all Step.isOneLine = true) :
    StepTold p (q, .ok steps) [] where
  told := by
    rw [hl, hc]
    exact .nil _ _
  more := fun _ he => Except.ok.inj he ▸ h
  thrown := nofun

theorem exists_stepTold_reportThen {message : String} {steps : List Step}
    (hm : isOneLine message = true) (h : steps.all Step.isOneLine = true) :
    ∃ es, StepTold p (p.reportThen message steps) es := by
  by_cases hr : p.recovering = true
  · have hreport : p.reportThen message steps = (p, .ok steps) := by
      simp [reportThen, report, hr]
    rw [hreport]
    exact ⟨[], stepTold_quietly rfl rfl h⟩
  · have hone : Told p.listeners p.errorCount [p.errorHere message]
        (p.reportThen message steps).1.listeners (p.reportThen message steps).1.errorCount := by
      simp only [fst_reportThen, report, if_neg hr]
      exact .single hm _ _
    refine ⟨[p.errorHere message], hone, fun more he => ?_, fun e he => ?_⟩
    · obtain ⟨-, rfl⟩ := reportThen_ok (Prod.ext rfl he)
      exact h
    · obtain ⟨-, -, rfl⟩ := report_some (reportThen_error (Prod.ext rfl he))
      exact List.mem_singleton_self _

theorem exists_stepTold_expect {e : Expected} {next : List Step} (he : e.isOneLine = true)
    (h : next.all Step.isOneLine = true) : ∃ es, StepTold p (p.expect e next) es := by
  unfold expect
  dsimp only
  split
  · exact ⟨[], stepTold_quietly rfl rfl h⟩
  · split
    · exact exists_stepTold_reportThen
        (isOneLine_extraneousMessage _ (Expected.isOneLine_display he)) h
    · exact exists_stepTold_reportThen (isOneLine_absentMessage _ he) rfl

/-- Every step tells errors of one line, and leads to steps that do. -/
theorem exists_stepTold_perform {s : Step} (h : s.isOneLine = true) :
    ∃ es, StepTold p (p.perform s) es := by
  cases s with
  | start _ | wrap _ _ | finish | skip => exact ⟨[], stepTold_quietly rfl rfl rfl⟩
  | take n =>
    exact ⟨[], stepTold_quietly (listeners_takeMany p n) (errorCount_takeMany p n) rfl⟩
  | takeIf m => refine ⟨[], stepTold_quietly ?_ ?_ rfl⟩ <;> split <;> rfl
  | progress since => refine ⟨[], stepTold_quietly ?_ ?_ rfl⟩ <;> split <;> rfl
  | expect e => exact exists_stepTold_expect h rfl
  | expectThen e next =>
    obtain ⟨he, hnext⟩ := Bool.and_eq_true_iff.1 h
    exact exists_stepTold_expect he (by rw [List.all_cons, hnext]; rfl)
  | complain c => exact exists_stepTold_reportThen (isOneLine_complaintMessage _ h) rfl
  | endOfText =>
    rw [perform]
    split
    · exact ⟨[], stepTold_quietly rfl rfl rfl⟩
    · exact exists_stepTold_reportThen
        (isOneLine_extraneousMessage _ Kind.eof.isOneLine_display) rfl
  | skipRest =>
    rw [perform]
    split <;> exact ⟨[], stepTold_quietly rfl rfl rfl⟩
  | typ part => exact ⟨[], stepTold_quietly rfl rfl part.all_isOneLine⟩
  | expr part => exact ⟨[], stepTold_quietly rfl rfl (part.all_isOneLine _)⟩
  | soql part => exact ⟨[], stepTold_quietly rfl rfl part.all_isOneLine⟩
  | stmt part => exact ⟨[], stepTold_quietly rfl rfl part.all_isOneLine⟩
  | decl part => exact ⟨[], stepTold_quietly rfl rfl part.all_isOneLine⟩

/-- A run tells errors of one line. By induction on the steps that it is allowed. -/
theorem exists_told_runWithin (n : Nat) (ss : List Step) (h : ss.all Step.isOneLine = true) :
    ∃ es, Told p.listeners p.errorCount es
        (runWithin n ss p).1.listeners (runWithin n ss p).1.errorCount ∧
      ∀ e, (runWithin n ss p).2 = .thrown e → e ∈ es := by
  induction n generalizing ss p with
  | zero => cases ss <;> exact ⟨[], .nil _ _, nofun⟩
  | succ n ih =>
    cases ss with
    | nil => exact ⟨[], .nil _ _, nofun⟩
    | cons s ss =>
      rw [List.all_cons, Bool.and_eq_true] at h
      obtain ⟨es, hstep⟩ := exists_stepTold_perform (p := p) h.1
      rw [runWithin]
      rcases hp : p.perform s with ⟨q, e | more⟩
      · rw [hp] at hstep
        refine ⟨es, hstep.told, fun e' he => ?_⟩
        cases he
        exact hstep.thrown e rfl
      · rw [hp] at hstep
        obtain ⟨fs, htold, hthrown⟩ := ih (p := q) (more ++ ss)
          (by rw [List.all_append, hstep.more more rfl, h.2]; rfl)
        exact ⟨es ++ fs, hstep.told.append htold,
          fun e he => List.mem_append_right _ (hthrown e he)⟩

end Parser

end ApexSyntax
