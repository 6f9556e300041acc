-- What the calls of a lexer answer: the tokens and the errors of a text, in order. They
-- are the same whoever listens. A listener that throws makes every error an answer of
-- its own; past any other listeners the same call goes on to the next token.
import ApexSyntax.Proofs.Lexer.Reading
import ApexSyntax.Proofs.Listeners

namespace ApexSyntax

/-- What a call of a lexer answers: a token, or the error that a listener threw. -/
abbrev Answer := Except SyntaxError Token

namespace Answer

def error? : Answer → Option SyntaxError
  | .ok _ => none
  | .error e => some e

/-- The tokens among some answers. -/
def tokens (as : List Answer) : List Token := as.filterMap Except.toOption

/-- The errors among some answers. -/
def errors (as : List Answer) : List SyntaxError := as.filterMap error?

variable (t : Token) (e : SyntaxError) (as bs : List Answer) (ts : List Token)

@[simp] theorem tokens_ok : tokens (.ok t :: as) = t :: tokens as := rfl

@[simp] theorem tokens_error : tokens (.error e :: as) = tokens as := rfl

@[simp] theorem errors_ok : errors (.ok t :: as) = errors as := rfl

@[simp] theorem errors_error : errors (.error e :: as) = e :: errors as := rfl

@[simp] theorem tokens_append : tokens (as ++ bs) = tokens as ++ tokens bs :=
  List.filterMap_append

@[simp] theorem errors_append : errors (as ++ bs) = errors as ++ errors bs :=
  List.filterMap_append

@[simp] theorem tokens_map_ok : tokens (ts.map .ok) = ts := by
  induction ts with
  | nil => rfl
  | cons t ts ih => rw [List.map_cons, tokens_ok, ih]

@[simp] theorem errors_map_ok : errors (ts.map .ok) = [] := by
  induction ts with
  | nil => rfl
  | cons t ts ih => rw [List.map_cons, errors_ok, ih]

end Answer

/-! ## All answers of a text -/

/-- A lexer answers the rest of its text with tokens, and with errors about what is no
token, up to the end. -/
inductive Answers : Lexer → List Answer → Lexer → Prop
  | done {l : Lexer} : l.reader.rest = [] → Answers l [] { l with done := true }
  | token {l l' : Lexer} {as : List Answer} {c : Char} {rest : List Char} {kind : Kind}
      {n : Nat} :
      l.reader.rest = c :: rest → Lexeme.scan c rest = .token kind n →
      Answers (l.skip n) as l' → Answers l (.ok (l.tokenOf kind n) :: as) l'
  | unreadable {l l' : Lexer} {as : List Answer} {c : Char} {rest : List Char}
      {shown skipped : Nat} :
      l.reader.rest = c :: rest → Lexeme.scan c rest = .unreadable shown skipped →
      Answers ((l.skip skipped).report (l.unreadableError shown)) as l' →
      Answers l (.error (l.unreadableError shown) :: as) l'

namespace Lexer

/-- The lexer comes past another state while it reads its text. -/
inductive Passes : Lexer → Lexer → Prop
  | here (l : Lexer) : Passes l l
  | skip {l m : Lexer} {n : Nat} : n ≤ l.reader.rest.length → Passes (l.skip n) m → Passes l m
  | report {l m : Lexer} {e : SyntaxError} : Passes (l.report e) m → Passes l m

/-- An error is about what stands at a place of the text, and was found there. -/
def Finds (l : Lexer) (i : Nat) (e : SyntaxError) : Prop :=
  ∃ m n, l.Passes m ∧ m.index = i ∧ 0 < n ∧ n ≤ m.reader.rest.length ∧ e = m.unreadableError n

/-- What is read is there. -/
theorem size_le_rest {l : Lexer} {c : Char} {rest : List Char} (h : l.reader.rest = c :: rest) :
    (Lexeme.scan c rest).size ≤ l.reader.rest.length := by
  rw [h, List.length_cons]
  exact (Lexeme.scan_bounds c rest).2

/-- What is read makes the rest shorter. -/
theorem left_skip_lt {l : Lexer} {c : Char} {rest : List Char}
    (h : l.reader.rest = c :: rest) :
    (l.skip (Lexeme.scan c rest).size).reader.left < l.reader.left := by
  have hb := (Lexeme.scan_bounds c rest).1
  have hl := left_eq_of_rest h
  rw [left_skip]
  omega

theorem Finds.of_skip {l : Lexer} {n i : Nat} {e : SyntaxError} (hn : n ≤ l.reader.rest.length)
    (h : (l.skip n).Finds i e) : l.Finds i e := by
  obtain ⟨m, k, hm, hfind⟩ := h
  exact ⟨m, k, .skip hn hm, hfind⟩

theorem Finds.of_report {l : Lexer} {i : Nat} {e e' : SyntaxError}
    (h : (l.report e').Finds i e) : l.Finds i e := by
  obtain ⟨m, k, hm, hfind⟩ := h
  exact ⟨m, k, .report hm, hfind⟩

/-- Every text has its answers. -/
theorem exists_answers (l : Lexer) : ∃ as l', Answers l as l' := by
  induction h : l.reader.left using Nat.strongRecOn generalizing l with
  | ind n ih =>
    cases hr : l.reader.rest with
    | nil => exact ⟨_, _, .done hr⟩
    | cons c rest =>
      have hlt := left_skip_lt hr
      rw [h] at hlt
      cases hs : Lexeme.scan c rest with
      | token kind k =>
        rw [hs] at hlt
        obtain ⟨as, l', ha⟩ := ih _ hlt (l.skip k) rfl
        exact ⟨_, _, .token hr hs ha⟩
      | unreadable shown skipped =>
        rw [hs] at hlt
        obtain ⟨as, l', ha⟩ :=
          ih _ hlt ((l.skip skipped).report (l.unreadableError shown)) rfl
        exact ⟨_, _, .unreadable hr hs ha⟩

end Lexer

/-- The tokens of a text are those among its answers. -/
theorem Lexes.answers {l l' : Lexer} {ts : List Token} (h : Lexes l ts l') :
    ∃ as, Answers l as l' ∧ Answer.tokens as = ts := by
  induction h with
  | done hr => exact ⟨[], .done hr, rfl⟩
  | token hr hs _ ih =>
    obtain ⟨as, ha, ht⟩ := ih
    exact ⟨_, .token hr hs ha, congrArg _ ht⟩
  | unreadable hr hs _ ih =>
    obtain ⟨as, ha, ht⟩ := ih
    exact ⟨_, .unreadable hr hs ha, ht⟩

namespace Answers

variable {l l' : Lexer} {as : List Answer}

theorem lexes (h : Answers l as l') : Lexes l (Answer.tokens as) l' := by
  induction h with
  | done hr => exact .done hr
  | token hr hs _ ih => exact .token hr hs ih
  | unreadable hr hs _ ih => exact .unreadable hr hs ih

theorem done_eq (h : Answers l as l') : l'.done = true := by
  induction h with
  | done _ => rfl
  | token _ _ _ ih => exact ih
  | unreadable _ _ _ ih => exact ih

/-- Every error is counted. -/
theorem errorCount (h : Answers l as l') :
    l'.errorCount = l.errorCount + (Answer.errors as).length := by
  induction h with
  | done _ => rfl
  | token _ _ _ ih => exact ih
  | @unreadable l _ _ _ _ shown skipped _ _ _ ih =>
    have he : ((l.skip skipped).report (l.unreadableError shown)).errorCount =
        l.errorCount + 1 := rfl
    rw [ih, he, Answer.errors_error, List.length_cons]
    omega

/-- The listeners hear every error. -/
theorem listeners (h : Answers l as l') :
    l'.listeners = Listener.hearEach (Answer.errors as) l.listeners := by
  induction h with
  | done _ => rfl
  | token _ _ _ ih => exact ih
  | unreadable _ _ _ ih => exact ih

/-- The answers are the same whoever listens. -/
theorem withListeners (h : Answers l as l') (ls : List Listener) :
    Answers { l with listeners := ls } as
      { l' with listeners := Listener.hearEach (Answer.errors as) ls } := by
  induction h generalizing ls with
  | done hr => exact .done hr
  | token hr hs _ ih => exact .token hr hs (ih ls)
  | @unreadable l _ _ _ _ shown _ hr hs _ ih =>
    exact .unreadable hr hs (ih (Listener.hearAll (l.unreadableError shown) ls))

end Answers

end ApexSyntax
