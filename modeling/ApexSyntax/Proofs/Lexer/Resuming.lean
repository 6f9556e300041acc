-- Lexing that goes on after every error. Called until it is done, a lexer whose listeners
-- throw gives the same tokens as one without listeners, and throws the errors that a
-- collector keeps.
import ApexSyntax.Proofs.Lexer.Answers

namespace ApexSyntax

namespace Lexer

/-- Calls the lexer until it is done, at most `fuel` times. A call that throws is followed
by the next one. -/
def untilDoneWithin : Nat → Lexer → List Answer × Lexer
  | 0, l => ([], l)
  | fuel + 1, l =>
    if l.done then ([], l)
    else
      let (l', a) := l.next
      let (as, l'') := untilDoneWithin fuel l'
      (a :: as, l'')

/-- Calls the lexer until it is done: what all calls answer, and the lexer behind them.
Every call but the last one reads something. -/
def untilDone (l : Lexer) : List Answer × Lexer := l.untilDoneWithin (l.reader.left + 1)

theorem untilDoneWithin_succ {l : Lexer} (hd : l.done = false) (n : Nat) :
    l.untilDoneWithin (n + 1) =
      (l.next.2 :: (l.next.1.untilDoneWithin n).1, (l.next.1.untilDoneWithin n).2) := by
  rw [untilDoneWithin, hd]
  rfl

theorem untilDoneWithin_done {l : Lexer} (hd : l.done = true) (n : Nat) :
    l.untilDoneWithin n = ([], l) := by
  cases n with
  | zero => rfl
  | succ n => rw [untilDoneWithin, if_pos hd]

/-! ## Single calls -/

section Calls

variable {l : Lexer} {c : Char} {rest : List Char} {kind : Kind} {n shown skipped : Nat}

theorem next_of_rest_nil (hr : l.reader.rest = []) :
    l.next = ({ l with done := true }, .ok l.eofToken) := by
  unfold next nextWithin
  split
  · rfl
  · rw [hr]

/-- More fuel than characters changes nothing. -/
theorem nextWithin_eq_next (h : l.reader.left ≤ n) : l.nextWithin n = l.next := by
  induction n using Nat.strongRecOn generalizing l with
  | ind n ih =>
    cases hr : l.reader.rest with
    | nil =>
      rw [next_of_rest_nil hr]
      unfold nextWithin
      split
      · rfl
      · rw [hr]
    | cons c rest =>
      have hl := left_eq_of_rest hr
      obtain ⟨n, rfl⟩ := Nat.exists_eq_succ_of_ne_zero (show n ≠ 0 by omega)
      rw [next, hl, nextWithin, nextWithin, hr]
      dsimp only
      split
      · rfl
      · rename_i shown skipped hs
        have hlt := left_skip_lt hr
        rw [hs] at hlt
        have hleft : ((l.skip skipped).report (l.unreadableError shown)).reader.left <
            l.reader.left := hlt
        split
        · rfl
        · rw [ih n (Nat.lt_succ_self n) (by omega), ih rest.length (by omega) (by omega)]

theorem next_token (hr : l.reader.rest = c :: rest) (hs : Lexeme.scan c rest = .token kind n) :
    l.next = (l.skip n, .ok (l.tokenOf kind n)) := by
  rw [next, left_eq_of_rest hr, nextWithin, hr]
  dsimp only
  rw [hs]

/-- A listener that throws ends the call behind what cannot be read. -/
theorem next_throws (hr : l.reader.rest = c :: rest)
    (hs : Lexeme.scan c rest = .unreadable shown skipped)
    (hl : Listener.stopsAt l.listeners = true) :
    l.next = ((l.skip skipped).report (l.unreadableError shown),
      .error (l.unreadableError shown)) := by
  rw [next, left_eq_of_rest hr, nextWithin, hr]
  dsimp only
  rw [hs]
  dsimp only
  rw [if_pos hl]

/-- Past all other listeners the call goes on. -/
theorem next_goes_on (hr : l.reader.rest = c :: rest)
    (hs : Lexeme.scan c rest = .unreadable shown skipped)
    (hl : Listener.stopsAt l.listeners = false) :
    l.next = ((l.skip skipped).report (l.unreadableError shown)).next := by
  have hlt := left_skip_lt hr
  rw [hs, left_eq_of_rest hr] at hlt
  have hleft : ((l.skip skipped).report (l.unreadableError shown)).reader.left ≤ rest.length :=
    Nat.le_of_lt_succ hlt
  rw [next, left_eq_of_rest hr, nextWithin, hr]
  dsimp only
  rw [hs]
  dsimp only
  rw [if_neg (by simp [hl]), nextWithin_eq_next hleft]

end Calls

end Lexer

/-! ## All calls -/

namespace Answers

variable {l l' : Lexer} {as : List Answer}

/-- Calls give the answers of the text, or only the tokens among them when no listener
throws, and then the end. -/
theorem untilDoneWithin_eq (h : Answers l as l') (hd : l.done = false) {n : Nat}
    (hn : l.reader.left < n) :
    l.untilDoneWithin n =
      ((if Listener.stopsAt l.listeners then as else (Answer.tokens as).map .ok) ++
        [Except.ok l'.eofToken], l') := by
  induction h generalizing n with
  | @done l hr =>
    obtain ⟨n, rfl⟩ := Nat.exists_eq_add_one_of_ne_zero (Nat.ne_zero_of_lt hn)
    rw [Lexer.untilDoneWithin_succ hd, Lexer.next_of_rest_nil hr, Lexer.untilDoneWithin_done rfl]
    split <;> rfl
  | @token l l' as c rest kind k hr hs _ ih =>
    obtain ⟨n, rfl⟩ := Nat.exists_eq_add_one_of_ne_zero (Nat.ne_zero_of_lt hn)
    have hlt := Lexer.left_skip_lt hr
    rw [hs] at hlt
    have hleft : (l.skip k).reader.left < n := Nat.lt_of_lt_of_le hlt (Nat.le_of_lt_succ hn)
    rw [Lexer.untilDoneWithin_succ hd, Lexer.next_token hr hs, ih hd hleft, Lexer.listeners_skip]
    split <;> rfl
  | @unreadable l l' as c rest shown skipped hr hs _ ih =>
    obtain ⟨n, rfl⟩ := Nat.exists_eq_add_one_of_ne_zero (Nat.ne_zero_of_lt hn)
    have hlt := Lexer.left_skip_lt hr
    rw [hs] at hlt
    have hleft : ((l.skip skipped).report (l.unreadableError shown)).reader.left <
        l.reader.left := hlt
    have hd' : ((l.skip skipped).report (l.unreadableError shown)).done = false := hd
    have hstops := Lexer.stopsAt_report (l.skip skipped) (l.unreadableError shown)
    rw [Lexer.listeners_skip] at hstops
    cases hl : Listener.stopsAt l.listeners with
    | true =>
      rw [Lexer.untilDoneWithin_succ hd, Lexer.next_throws hr hs hl, ih hd' (by omega), hstops,
        hl]
      rfl
    | false =>
      -- The same call goes on, so the calls are those from behind the error.
      have hsame : l.untilDoneWithin (n + 1) =
          ((l.skip skipped).report (l.unreadableError shown)).untilDoneWithin (n + 1) := by
        rw [Lexer.untilDoneWithin_succ hd, Lexer.untilDoneWithin_succ hd',
          Lexer.next_goes_on hr hs hl]
      rw [hsame, ih hd' (by omega), hstops, hl]
      rfl

theorem untilDone_eq (h : Answers l as l') (hd : l.done = false) :
    l.untilDone =
      ((if Listener.stopsAt l.listeners then as else (Answer.tokens as).map .ok) ++
        [Except.ok l'.eofToken], l') :=
  h.untilDoneWithin_eq hd (Nat.lt_succ_self _)

end Answers

/-! ## Whole texts -/

/-- A lexer that throws loses nothing by it. Called until it is done, with every error
kept like a token, it gives the tokens that a lexer without listeners gives, and it
throws, in the same order, the errors that a collector keeps. All of them count the same
number of errors. -/
theorem throwing_lexer_resumes (casing : Text.Casing) (text path : String) {ls : List Listener}
    (hls : Listener.stopsAt ls = true) :
    let thrown := { Lexer.ofString casing text with listeners := ls }.untilDone
    let silent := (Lexer.ofString casing text).untilDone
    let kept := ((Lexer.ofString casing text).addListener (.collector path)).untilDone
    (thrown.2.done ∧ silent.2.done ∧ kept.2.done) ∧
      (Answer.tokens thrown.1 = Answer.tokens silent.1 ∧
        Answer.tokens kept.1 = Answer.tokens silent.1) ∧
      (Answer.errors silent.1 = [] ∧ Answer.errors kept.1 = []) ∧
      kept.2.listeners = [.collecting path false
        ((Answer.errors thrown.1).map (Diagnostic.ofError path)).toArray] ∧
      (thrown.2.errorCount = silent.2.errorCount ∧ kept.2.errorCount = silent.2.errorCount) := by
  intro thrown silent kept
  obtain ⟨as, l', ha⟩ := (Lexer.ofString casing text).exists_answers
  have hdone : l'.done = true := ha.done_eq
  have hthrown : thrown = (as ++ [.ok l'.eofToken],
      { l' with listeners := Listener.hearEach (Answer.errors as) ls }) := by
    have h := (ha.withListeners ls).untilDone_eq rfl
    rwa [if_pos hls] at h
  have hsilent : silent = ((Answer.tokens as).map .ok ++ [.ok l'.eofToken], l') :=
    ha.untilDone_eq rfl
  have hkept : kept = ((Answer.tokens as).map .ok ++ [.ok l'.eofToken],
      { l' with listeners := Listener.hearEach (Answer.errors as) [.collector path] }) :=
    (ha.withListeners [.collector path]).untilDone_eq rfl
  have hend : Answer.errors [.ok l'.eofToken] = [] := rfl
  rw [hthrown, hsilent, hkept]
  refine ⟨⟨hdone, hdone, hdone⟩, ?_, ?_, ?_, rfl, rfl⟩
  · simp only [Answer.tokens_append, Answer.tokens_map_ok, and_self]
  · simp only [Answer.errors_append, Answer.errors_map_ok, hend, List.append_nil, and_self]
  · rw [Listener.collector, Listener.hearEach_collecting, Answer.errors_append, hend,
      List.append_nil, Array.empty_append]

/-- A character and a quote are reported, each by a call of its own. -/
theorem throwing_lexer_resumes_openString :
    Listener.stopsAt [.throwing] = true ∧
      (let thrown := { Lexer.ofString .exact "a # b\n'c" with listeners := [.throwing] }.untilDone
      let silent := (Lexer.ofString .exact "a # b\n'c").untilDone
      (Answer.errors thrown.1).map (fun e => (e.line, e.column)) = [(1, 3), (2, 1)] ∧
        (Answer.tokens thrown.1).length = 7 ∧
        Answer.tokens thrown.1 = Answer.tokens silent.1) :=
  ⟨rfl, by decide +kernel, by decide +kernel,
    (throwing_lexer_resumes .exact "a # b\n'c" "A.cls" rfl).2.1.1⟩

end ApexSyntax
