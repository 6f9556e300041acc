-- Who listens decides nothing but where a run stops. A step raises the same
-- error whoever listens, so a run that throws has thrown the first of the errors
-- that a run with collectors goes on to keep.
import ApexSyntax.Proofs.Check.Calls
import ApexSyntax.Proofs.Lexer.Calls
import ApexSyntax.Proofs.Listeners
import ApexSyntax.Proofs.Parser.Runs

namespace ApexSyntax

namespace Parser

/-- The parser with other listeners. -/
def withListeners (p : Parser) (ls : List Listener) : Parser := { p with listeners := ls }

/-! ## Steps, whoever listens -/

/-- A step leads to a parser and to more steps, and raises an error or none,
whoever listens: listeners only hear of the error, and may throw it. -/
def Does (p : Parser) (s : Step) (p' : Parser) (raised : Option SyntaxError)
    (more : List Step) : Prop :=
  ∀ ls, (p.withListeners ls).perform s =
    match raised with
    | none => (p'.withListeners ls, .ok more)
    | some e =>
      (p'.withListeners (Listener.hearAll e ls),
        if Listener.stopsAt ls then .error e else .ok more)

section Steps

variable (p : Parser)

theorem does_quietly {s : Step} (p' : Parser) (more : List Step)
    (h : ∀ ls, (p.withListeners ls).perform s = (p'.withListeners ls, .ok more)) :
    ∃ p' raised more, Does p s p' raised more :=
  ⟨p', none, more, h⟩

/-- A report raises an error, unless the parser recovers. -/
theorem does_report {s : Step} (message : String) (more : List Step)
    (h : ∀ ls, (p.withListeners ls).perform s =
      (p.withListeners ls).reportThen message more) :
    ∃ p' raised more, Does p s p' raised more := by
  by_cases hr : p.recovering = true
  · refine ⟨p, none, more, ?_⟩
    intro ls
    rw [h ls]
    simp [reportThen, report, withListeners, hr]
  · refine ⟨{ p with recovering := true, errorCount := p.errorCount + 1 },
      some (p.errorHere message), more, ?_⟩
    intro ls
    rw [h ls]
    by_cases hs : Listener.stopsAt ls = true
    · simp [reportThen, report, withListeners, hr, hs, errorHere, current, lookahead]
    · simp [reportThen, report, withListeners, hr, hs, errorHere, current, lookahead]

theorem current_withListeners (ls : List Listener) : (p.withListeners ls).current = p.current :=
  rfl

theorem lookahead_withListeners (ls : List Listener) :
    (p.withListeners ls).lookahead = p.lookahead := rfl

theorem does_expect {s : Step} {e : Expected} {next : List Step}
    (h : ∀ q : Parser, q.perform s = q.expect e next) :
    ∃ p' raised more, Does p s p' raised more := by
  by_cases ha : e.accepts p.current = true
  · apply does_quietly p p.take next
    intro ls
    rw [h, expect, current_withListeners, if_pos ha]
    rfl
  · by_cases hd : (!p.current.isEof && e.accepts (p.lookahead.nth 1)) = true
    · apply does_report p (extraneousMessage p.current e.display) (.skip :: .take 1 :: next)
      intro ls
      rw [h, expect, current_withListeners, lookahead_withListeners, if_neg ha, if_pos hd]
    · apply does_report p (absentMessage p.current e) []
      intro ls
      rw [h, expect, current_withListeners, lookahead_withListeners, if_neg ha, if_neg hd]

theorem takeMany_withListeners (n : Nat) (ls : List Listener) :
    (p.withListeners ls).takeMany n = (p.takeMany n).withListeners ls := by
  induction n generalizing p with
  | zero => rfl
  | succ n ih => exact ih p.take

theorem exists_does (s : Step) : ∃ p' raised more, Does p s p' raised more := by
  cases s with
  | start r => exact does_quietly p (p.build (·.start r)) [] fun _ => rfl
  | wrap mark r => exact does_quietly p (p.build (·.wrap mark r)) [] fun _ => rfl
  | finish => exact does_quietly p (p.build (·.finish)) [] fun _ => rfl
  | take n =>
    apply does_quietly p (p.takeMany n) []
    intro ls
    rw [perform, takeMany_withListeners]
  | takeIf m =>
    by_cases h : p.lookahead.atMark m = true
    · apply does_quietly p p.take []
      intro ls
      rw [perform, lookahead_withListeners, if_pos h]
      rfl
    · apply does_quietly p p []
      intro ls
      rw [perform, lookahead_withListeners, if_neg h]
  | skip => exact does_quietly p p.skip [] fun _ => rfl
  | progress since =>
    by_cases h : p.position = since
    · apply does_quietly p p.skip []
      intro ls
      have hls : (p.withListeners ls).position = since := h
      rw [perform, if_pos hls]
      rfl
    · apply does_quietly p p []
      intro ls
      have hls : ¬(p.withListeners ls).position = since := h
      rw [perform, if_neg hls]
  | expect e => exact does_expect p fun _ => rfl
  | expectThen e next => exact does_expect p fun _ => rfl
  | complain c => exact does_report p (complaintMessage p.current c) [] fun _ => rfl
  | endOfText =>
    by_cases h : p.current.isEof = true
    · apply does_quietly p p.take []
      intro ls
      rw [perform, current_withListeners, if_pos h]
      rfl
    · apply does_report p (extraneousMessage p.current Kind.eof.display) [.skipRest, .take 1]
      intro ls
      rw [perform, current_withListeners, if_neg h]
  | skipRest =>
    by_cases h : p.current.isEof = true
    · apply does_quietly p p []
      intro ls
      rw [perform, current_withListeners, if_pos h]
    · apply does_quietly p p.skip [.skipRest]
      intro ls
      rw [perform, current_withListeners, if_neg h]
      rfl
  | typ part => exact does_quietly p p (part.expand p.lookahead) fun _ => rfl
  | expr part => exact does_quietly p p (part.expand p.lookahead p.tree.mark) fun _ => rfl
  | soql part => exact does_quietly p p (part.expand p.lookahead) fun _ => rfl
  | stmt part => exact does_quietly p p (part.expand p.lookahead) fun _ => rfl
  | decl part => exact does_quietly p p (part.expand p.lookahead) fun _ => rfl

end Steps

/-! ## Runs, whoever listens -/

/-- A run raises some errors, whoever listens. Listeners that do not throw hear
all of them; a throwing one ends the run at the first. -/
def RunsTo (n : Nat) (ss : List Step) (p q : Parser) (raised : List SyntaxError)
    (ending : Ending) : Prop :=
  (∀ ls, Listener.stopsAt ls = false →
    runWithin n ss (p.withListeners ls) = (q.withListeners (Listener.hearEach raised ls), ending)) ∧
  ∀ ls, Listener.stopsAt ls = true →
    match raised with
    | [] => runWithin n ss (p.withListeners ls) = (q.withListeners ls, ending)
    | e :: _ => (runWithin n ss (p.withListeners ls)).2 = .thrown e

theorem exists_runsTo (n : Nat) (ss : List Step) (p : Parser) :
    ∃ q raised ending, RunsTo n ss p q raised ending ∧ ∀ e, ending ≠ .thrown e := by
  induction n generalizing ss p with
  | zero =>
    cases ss with
    | nil => exact ⟨p, [], .finished, ⟨fun _ _ => rfl, fun _ _ => rfl⟩, nofun⟩
    | cons s ss => exact ⟨p, [], .exhausted, ⟨fun _ _ => rfl, fun _ _ => rfl⟩, nofun⟩
  | succ n ih =>
    cases ss with
    | nil => exact ⟨p, [], .finished, ⟨fun _ _ => rfl, fun _ _ => rfl⟩, nofun⟩
    | cons s ss =>
      obtain ⟨p', raised, more, hs⟩ := exists_does p s
      obtain ⟨q, later, ending, ⟨hcalm, hstrict⟩, hne⟩ := ih (more ++ ss) p'
      cases raised with
      | none =>
        refine ⟨q, later, ending, ⟨?_, ?_⟩, hne⟩
        · intro ls hl
          rw [runWithin, hs ls]
          exact hcalm ls hl
        · intro ls hl
          have h := hstrict ls hl
          rw [runWithin, hs ls]
          exact h
      | some e =>
        refine ⟨q, e :: later, ending, ⟨?_, ?_⟩, hne⟩
        · intro ls hl
          rw [runWithin, hs ls]
          simp only [hl, Bool.false_eq_true, if_false]
          exact hcalm _ (by rw [Listener.stopsAt_hearAll, hl])
        · intro ls hl
          rw [runWithin, hs ls]
          simp only [hl, if_true]

/-! ## Calls, whoever listens -/

theorem parse_of_run {p q : Parser} {entry : Entry} {ending : Ending}
    (h : p.run entry = (q, ending)) (hne : ∀ e, ending ≠ .thrown e) :
    p.parse entry = ({ q with tree := Builder.empty }, .ok q.tree.root) := by
  rw [parse, h]
  cases ending with
  | thrown e => exact absurd rfl (hne e)
  | finished | exhausted => rfl

theorem parse_of_thrown {p : Parser} {entry : Entry} {e : SyntaxError}
    (h : (p.run entry).2 = .thrown e) : (p.parse entry).2 = .error e := by
  unfold parse
  split
  · rename_i hr
    rw [hr] at h
    cases h
    rfl
  · rename_i hne hr
    rw [hr] at h
    exact absurd h (hne e)

/-- A call returns a tree and raises some errors. Listeners that do not throw
hear all of them; a throwing one makes the call fail with the first. -/
theorem exists_parse (p : Parser) (entry : Entry) :
    ∃ (q : Parser) (tree : Tree) (raised : List SyntaxError),
      (∀ ls, Listener.stopsAt ls = false → (p.withListeners ls).parse entry =
        (q.withListeners (Listener.hearEach raised ls), .ok tree)) ∧
      ∀ ls, Listener.stopsAt ls = true →
        match raised with
        | [] => (p.withListeners ls).parse entry = (q.withListeners ls, .ok tree)
        | e :: _ => ((p.withListeners ls).parse entry).2 = .error e := by
  obtain ⟨q, raised, ending, ⟨hcalm, hstrict⟩, hne⟩ :=
    exists_runsTo p.fuel [entry.step] { p with tree := Builder.empty, recovering := false }
  refine ⟨{ q with tree := Builder.empty }, q.tree.root, raised, ?_, ?_⟩
  · intro ls hl
    have h : (p.withListeners ls).run entry = _ := hcalm ls hl
    rw [parse_of_run h hne]
    rfl
  · intro ls hl
    cases raised with
    | nil =>
      have h : (p.withListeners ls).run entry = _ := hstrict ls hl
      rw [parse_of_run h hne]
      rfl
    | cons e later =>
      have h : ((p.withListeners ls).run entry).2 = .thrown e := hstrict ls hl
      exact parse_of_thrown h

/-! ## Failing fast -/

/-- The diagnostics that collectors keep are the errors in their order. -/
theorem allDiagnostics_hearEach (raised : List SyntaxError) (path : String) (echo : Bool) :
    Listener.allDiagnostics (Listener.hearEach raised [.collecting path echo #[]]) =
      raised.map (Diagnostic.ofError path) := by
  rw [Listener.hearEach_collecting]
  simp [Listener.allDiagnostics, Listener.diagnostics]

/-- A check that fails fast fails with the first diagnostic, if there is any. -/
theorem checkSource_failFast (path text : String) (kind : FileKind) :
    ∃ kept, checkSource path text kind false = .ok kept ∧
      checkSource path text kind true =
        match kept with
        | [] => .ok []
        | d :: _ => .error (.aborted path d.error) := by
  obtain ⟨stream, hstream⟩ := TokenStream.ofString_ok .folded text
  obtain ⟨q, tree, raised, hcalm, hstrict⟩ := exists_parse (ofStream stream) kind.entry
  have hfull : (ofCheck stream path false).parse kind.entry = _ := hcalm [.echoer path] rfl
  have hfirst := hstrict [.throwing, .echoer path] rfl
  refine ⟨raised.map (Diagnostic.ofError path), ?_, ?_⟩
  · rw [checkSource_eq kind false hstream, hfull]
    exact congrArg Except.ok (allDiagnostics_hearEach raised path true)
  · rw [checkSource_eq kind true hstream]
    cases raised with
    | nil =>
      have hp : (ofCheck stream path true).parse kind.entry = _ := hfirst
      rw [hp]
      rfl
    | cons e later =>
      have hp : ((ofCheck stream path true).parse kind.entry).2 = .error e := hfirst
      exact verdictOf_of_error hp

/-- Failing fast is the first step of collecting everything: a call that throws
fails with the first diagnostic that a collecting call keeps, and returns the
same tree if there is none. So does a check of a text. -/
theorem fails_with_first_diagnostic (p : Parser) (entry : Entry) (path text : String)
    (echo : Bool) (kind : FileKind) :
    (∃ tree, ((p.withListeners [.collecting path echo #[]]).parse entry).2 = .ok tree ∧
      ((p.withListeners [.throwing]).parse entry).2 =
        match Listener.allDiagnostics
          ((p.withListeners [.collecting path echo #[]]).parse entry).1.listeners with
        | [] => .ok tree
        | d :: _ => .error d.error) ∧
    ∃ kept, checkSource path text kind false = .ok kept ∧
      checkSource path text kind true =
        match kept with
        | [] => .ok []
        | d :: _ => .error (.aborted path d.error) := by
  refine ⟨?_, checkSource_failFast path text kind⟩
  obtain ⟨q, tree, raised, hcalm, hstrict⟩ := exists_parse p entry
  have hfull := hcalm [.collecting path echo #[]] rfl
  have hkept : Listener.allDiagnostics
      ((p.withListeners [.collecting path echo #[]]).parse entry).1.listeners =
        raised.map (Diagnostic.ofError path) := by
    rw [hfull]
    exact allDiagnostics_hearEach raised path echo
  refine ⟨tree, by rw [hfull], ?_⟩
  rw [hkept]
  have hstrict := hstrict [.throwing] rfl
  cases raised with
  | nil => rw [hstrict]; rfl
  | cons e later => exact hstrict

end Parser

end ApexSyntax
