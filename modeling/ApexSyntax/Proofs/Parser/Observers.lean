-- Listeners that do not throw hear what happens and have no part in it. What is reported
-- can be told without them: step by step, it is what a listener would throw that lets
-- nothing pass. Calls read, build and count the same whoever listens, and every listener
-- hears all of what is reported, in its order.
import ApexSyntax.Proofs.Lexer.Answers
import ApexSyntax.Proofs.Parser.Aborts
import ApexSyntax.Proofs.Parser.Termination

namespace ApexSyntax

namespace Parser

/-! ## What is reported -/

/-- The error that a step reports: what it throws when nothing is let pass. -/
def reported? (p : Parser) (s : Step) : Option SyntaxError :=
  match ((p.withListeners [.throwing]).perform s).2 with
  | .error e => some e
  | .ok _ => none

/-- The errors that a run reports, in their order. -/
def reportsWithin : Nat → List Step → Parser → List SyntaxError
  | _, [], _ => []
  | 0, _ :: _, _ => []
  | fuel + 1, s :: rest, p =>
    (p.reported? s).toList ++
      reportsWithin fuel (p.unheard.remaining s rest) (p.unheard.perform s).1

/-- The errors that a call reports. -/
def reports (p : Parser) (entry : Entry) : List SyntaxError :=
  reportsWithin p.fuel [entry.step] p.fresh

/-- The errors that some calls report, one call after the other. -/
def reportsEach (p : Parser) : List Entry → List SyntaxError
  | [] => []
  | entry :: rest => p.reports entry ++ (p.unheard.parse entry).1.reportsEach rest

/-! ## Steps -/

section Steps

variable {p q : Parser} {s : Step} {ls : List Listener}

@[simp] theorem unheard_withListeners (p : Parser) (ls : List Listener) :
    (p.withListeners ls).unheard = p.unheard := rfl

@[simp] theorem withListeners_unheard (p : Parser) (ls : List Listener) :
    p.unheard.withListeners ls = p.withListeners ls := rfl

theorem Does.reported?_eq {raised : Option SyntaxError} {more : List Step}
    (h : Does p s q raised more) : p.reported? s = raised := by
  rw [reported?, h [.throwing]]
  cases raised <;> rfl

/-- Nothing is thrown where nobody listens. -/
theorem exists_perform_unheard (p : Parser) (s : Step) :
    ∃ q more, p.unheard.perform s = (unheard q, .ok more) := by
  obtain ⟨q, raised, more, hd⟩ := exists_does p s
  have h := hd []
  cases raised with
  | none => exact ⟨q, more, h⟩
  | some e => exact ⟨q, more, h⟩

/-- A step does the same for all listeners that do not throw, and they hear its report. -/
theorem perform_withListeners (hl : Listener.stopsAt ls = false) :
    (p.withListeners ls).perform s =
      ((p.unheard.perform s).1.withListeners (Listener.hearEach (p.reported? s).toList ls),
        (p.unheard.perform s).2) := by
  obtain ⟨q, raised, more, hd⟩ := exists_does p s
  have hunheard : p.unheard.perform s = _ := hd []
  rw [hd.reported?_eq, hunheard, hd ls]
  cases raised with
  | none => rfl
  | some e =>
    simp only [hl, Bool.false_eq_true, if_false]
    rfl

theorem hearEach_counter (es : List SyntaxError) :
    Listener.hearEach es [.counter] = [.counting es.length] := by
  rw [Listener.hearEach_eq_map rfl, List.map_singleton, Listener.counter, Listener.afterHearing,
    Nat.zero_add]

/-- What is reported is counted: a listener that counts counts as the parser does. -/
theorem errorCount_perform :
    (p.unheard.perform s).1.errorCount = p.errorCount + (p.reported? s).toList.length := by
  have hstep : Reaches [s] (p.withListeners [.counter]) _ _ _ := .step (.refl _ _)
  obtain ⟨es, hlisteners, hcount, -⟩ := hstep.heard
  rw [perform_withListeners rfl] at hlisteners hcount
  have hlength := (hearEach_counter _).symm.trans (hlisteners.trans (hearEach_counter es))
  rw [Listener.counting.inj (List.cons.inj hlength).1]
  exact hcount

end Steps

/-! ## Runs and calls -/

section Calls

variable {p : Parser} {ls : List Listener}

/-- A run is the same for all listeners that do not throw, and they hear what it reports. By
induction on the steps that it is allowed. -/
theorem runWithin_withListeners (n : Nat) (ss : List Step) (hl : Listener.stopsAt ls = false) :
    runWithin n ss (p.withListeners ls) =
      ((runWithin n ss p.unheard).1.withListeners (Listener.hearEach (reportsWithin n ss p) ls),
        (runWithin n ss p.unheard).2) := by
  induction n generalizing ss p ls with
  | zero => cases ss <;> rfl
  | succ n ih =>
    cases ss with
    | nil => rfl
    | cons s ss =>
      obtain ⟨q, more, hq⟩ := exists_perform_unheard p s
      have hnext := ih (more ++ ss) (p := q.unheard)
        ((Listener.stopsAt_hearEach (p.reported? s).toList ls).trans hl)
      rw [runWithin, perform_withListeners hl, runWithin, reportsWithin, remaining_of_ok hq, hq,
        Listener.hearEach_append]
      exact hnext

theorem errorCount_runWithin (n : Nat) (ss : List Step) :
    (runWithin n ss p.unheard).1.errorCount = p.errorCount + (reportsWithin n ss p).length := by
  induction n generalizing ss p with
  | zero => cases ss <;> rfl
  | succ n ih =>
    cases ss with
    | nil => rfl
    | cons s ss =>
      obtain ⟨q, more, hq⟩ := exists_perform_unheard p s
      have hstep := errorCount_perform (p := p) (s := s)
      have hnext := ih (more ++ ss) (p := q.unheard)
      rw [hq] at hstep
      rw [runWithin, reportsWithin, remaining_of_ok hq, hq, List.length_append, ← Nat.add_assoc,
        ← hstep]
      exact hnext

theorem parse_withListeners (hl : Listener.stopsAt ls = false) (entry : Entry) :
    (p.withListeners ls).parse entry =
      ((p.unheard.parse entry).1.withListeners (Listener.hearEach (p.reports entry) ls),
        (p.unheard.parse entry).2) := by
  have hrun : (p.withListeners ls).run entry =
      ((p.unheard.run entry).1.withListeners (Listener.hearEach (p.reports entry) ls),
        (p.unheard.run entry).2) := runWithin_withListeners (p := p.fresh) p.fuel [entry.step] hl
  rw [parse, hrun, parse]
  rcases p.unheard.run entry with ⟨q, _ | e | _⟩ <;> rfl

/-- A call to which nobody listens returns a tree, and counts what it reports. -/
theorem exists_parse_unheard (p : Parser) (entry : Entry) :
    ∃ q tree, p.unheard.parse entry = (unheard q, .ok tree) ∧
      q.errorCount = p.errorCount + (p.reports entry).length := by
  obtain ⟨q, hrun⟩ : ∃ q, p.unheard.run entry = (q, .finished) := by
    rcases run_ends p.unheard entry with hends | ⟨q, e, -, hstops⟩
    · exact hends
    · cases hstops
  have hcount : (p.unheard.run entry).1.errorCount = p.errorCount + (p.reports entry).length :=
    errorCount_runWithin (p := p.fresh) p.fuel [entry.step]
  have hparse := parse_of_run hrun nofun
  have hcall : (p.unheard.withListeners []).parse entry = _ := parse_withListeners rfl entry
  rw [Listener.hearEach_eq_map rfl] at hcall
  have hunheard : (p.unheard.parse entry).1 = unheard (p.unheard.parse entry).1 :=
    congrArg Prod.fst hcall
  refine ⟨(p.unheard.parse entry).1, q.tree.root, Prod.ext hunheard (by rw [hparse]), ?_⟩
  rw [hparse, ← hcount, hrun]

/-- Some calls are the same for all listeners that do not throw. Each returns a tree, and the
listeners hear what the calls report. -/
theorem exists_parseEach (p : Parser) (calls : List Entry) :
    ∃ (q : Parser) (trees : List Tree),
      q.errorCount = p.errorCount + (p.reportsEach calls).length ∧
      ∀ ls, Listener.stopsAt ls = false → (p.withListeners ls).parseEach calls =
        (q.withListeners (Listener.hearEach (p.reportsEach calls) ls), trees.map .ok) := by
  induction calls generalizing p with
  | nil => exact ⟨p, [], rfl, fun ls _ => rfl⟩
  | cons entry rest ih =>
    obtain ⟨q, tree, hparse, hcount⟩ := exists_parse_unheard p entry
    obtain ⟨r, trees, hrest, heach⟩ := ih q.unheard
    refine ⟨r, tree :: trees, ?_, fun ls hl => ?_⟩
    · rw [reportsEach, hparse, List.length_append, hrest, ← Nat.add_assoc, ← hcount]
      rfl
    · have hnext := heach _ ((Listener.stopsAt_hearEach (p.reports entry) ls).trans hl)
      rw [withListeners_unheard] at hnext
      rw [parseEach, parse_withListeners hl, hparse, reportsEach, hparse, Listener.hearEach_append]
      dsimp only
      rw [withListeners_unheard, hnext]
      rfl

end Calls

/-! ## Observers -/

/-- Listeners that do not throw decide nothing. Whatever is called, for any such listeners the
calls return the same trees and leave the parser at the same place with the same number of
errors counted. Every listener has then heard what the calls report: a collector keeps it in
that order and under its own path, and it is as much as the parser has counted and as every
counting listener counts. The same is true of a lexer that reads its text up to the end. -/
theorem listeners_only_hear (p : Parser) (calls : List Entry) (l : Lexer) :
    (∃ (q : Parser) (trees : List Tree),
      q.errorCount = p.errorCount + (p.reportsEach calls).length ∧
      ∀ ls, Listener.stopsAt ls = false → (p.withListeners ls).parseEach calls =
        (q.withListeners (ls.map (Listener.afterHearing (p.reportsEach calls))),
          trees.map .ok)) ∧
    ∃ as l', Answers l as l' ∧ l'.errorCount = l.errorCount + (Answer.errors as).length ∧
      ∀ ls, Listener.stopsAt ls = false → { l with listeners := ls }.readAll =
        (Answer.tokens as ++ [l'.eofToken],
          { l' with listeners := ls.map (Listener.afterHearing (Answer.errors as)) }) := by
  constructor
  · obtain ⟨q, trees, hcount, hcalls⟩ := exists_parseEach p calls
    refine ⟨q, trees, hcount, fun ls hl => ?_⟩
    rw [hcalls ls hl, Listener.hearEach_eq_map hl]
  · obtain ⟨as, l', ha⟩ := l.exists_answers
    refine ⟨as, l', ha, ha.errorCount, fun ls hl => ?_⟩
    obtain ⟨ts, r, hread, hlexes⟩ := Lexer.readAll_lexes (l := { l with listeners := ls }) hl
    obtain ⟨rfl, rfl⟩ := hlexes.unique (ha.withListeners ls).lexes
    rw [hread, Listener.hearEach_eq_map hl]
    rfl

/-- Two calls at a semicolon report one error each, and both listeners hear of both. -/
theorem listeners_only_hear_atSemicolon :
    Listener.stopsAt [.counter, .echoer "B.cls"] = false ∧
    (atSemicolon.reportsEach [.expression, .literal]).map SyntaxError.message =
      ["no viable alternative at input ';'", "no viable alternative at input ';'"] ∧
    ∃ trees, (atSemicolon.withListeners [.counter, .echoer "B.cls"]).parseEach
        [.expression, .literal] =
      ((atSemicolon.parseEach [.expression, .literal]).1.withListeners
        [.counting 2, .collecting "B.cls" true
          ((atSemicolon.reportsEach [.expression, .literal]).map
            (Diagnostic.ofError "B.cls")).toArray], trees) ∧
      (atSemicolon.parseEach [.expression, .literal]).2 = trees ∧
      (atSemicolon.parseEach [.expression, .literal]).1.errorCount = 2 := by
  have hl : Listener.stopsAt [.counter, .echoer "B.cls"] = false := rfl
  have hreports : (atSemicolon.reportsEach [.expression, .literal]).map SyntaxError.message =
      ["no viable alternative at input ';'", "no viable alternative at input ';'"] := by
    decide +kernel
  have htwo : (atSemicolon.reportsEach [.expression, .literal]).length = 2 := by
    rw [← List.length_map, hreports]
    rfl
  obtain ⟨⟨q, trees, hcount, hcalls⟩, -⟩ :=
    listeners_only_hear atSemicolon [.expression, .literal] (Lexer.ofString .exact "a")
  have hown : atSemicolon.parseEach [.expression, .literal] = _ := hcalls [.collector "A.cls"] rfl
  refine ⟨hl, hreports, trees.map .ok, ?_, by rw [hown], by rw [hown, ← htwo]; exact hcount⟩
  rw [hcalls _ hl, hown, List.map_cons, List.map_singleton, Listener.counter, Listener.echoer,
    Listener.afterHearing, Listener.afterHearing, htwo, Array.empty_append]
  simp only [withListeners]

end Parser

end ApexSyntax
