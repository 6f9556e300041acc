-- Words of brackets. A stack of the brackets that are open reads a word token after
-- token; a word that leaves an empty stack empty is well nested.
import ApexSyntax.Token.Kind

namespace ApexSyntax

/-! ## Brackets -/

inductive Bracket where
  | round | curly | square
  deriving DecidableEq, Repr

namespace Kind

/-- The bracket that a token opens. -/
def opened? : Kind → Option Bracket
  | mark .lParen => some .round
  | mark .lBrace => some .curly
  | mark .lBrack => some .square
  | _ => none

/-- The bracket that a token closes. -/
def closed? : Kind → Option Bracket
  | mark .rParen => some .round
  | mark .rBrace => some .curly
  | mark .rBrack => some .square
  | _ => none

/-- A token that is no bracket. -/
def isPlain (k : Kind) : Bool := k.opened?.isNone && k.closed?.isNone

end Kind

/-! ## Well-nested words -/

/-- Every bracket that is opened is closed by one of its form, in order, and none is
left over. -/
inductive Nested : List Kind → Prop
  | nil : Nested []
  | plain {k : Kind} {ks : List Kind} : k.isPlain = true → Nested ks → Nested (k :: ks)
  | pair {b : Bracket} {k l : Kind} {inner rest : List Kind} :
      k.opened? = some b → l.closed? = some b → Nested inner → Nested rest →
      Nested (k :: inner ++ l :: rest)

/-- The brackets that are open behind a token, the innermost first. There are none when
it closes a bracket that is not the innermost one. -/
def nestOne (st : List Bracket) (k : Kind) : Option (List Bracket) :=
  match k.opened?, k.closed? with
  | some b, _ => some (b :: st)
  | none, none => some st
  | none, some b => if st.head? = some b then some st.tail else none

/-- The brackets that are open behind some tokens. -/
def nest (st : List Bracket) : List Kind → Option (List Bracket)
  | [] => some st
  | k :: ks => (nestOne st k).bind fun st => nest st ks

/-- What closes the open brackets one after the other, with well-nested words between. -/
inductive Unwinds : List Bracket → List Kind → Prop
  | nil {ks : List Kind} : Nested ks → Unwinds [] ks
  | cons {b : Bracket} {st : List Bracket} {l : Kind} {ks ls : List Kind} :
      Nested ks → l.closed? = some b → Unwinds st ls → Unwinds (b :: st) (ks ++ l :: ls)

section Words

variable {st : List Bracket} {k : Kind} {ks : List Kind} {b : Bracket}

@[simp] theorem nest_nil (st : List Bracket) : nest st [] = some st := rfl

theorem nest_append (st : List Bracket) (ks ls : List Kind) :
    nest st (ks ++ ls) = (nest st ks).bind fun st => nest st ls := by
  induction ks generalizing st with
  | nil => rfl
  | cons k ks ih =>
    rw [List.cons_append, nest, nest, Option.bind_assoc]
    exact congrArg _ (funext ih)

theorem nestOne_plain (h : k.isPlain = true) (st : List Bracket) : nestOne st k = some st := by
  simp only [Kind.isPlain, Bool.and_eq_true, Option.isNone_iff_eq_none] at h
  rw [nestOne, h.1, h.2]

theorem nest_plain (h : k.isPlain = true) (st : List Bracket) :
    nest st (k :: ks) = nest st ks := by
  rw [nest, nestOne_plain h, Option.bind_some]

theorem Unwinds.plain (hk : k.isPlain = true) (h : Unwinds st ks) : Unwinds st (k :: ks) := by
  cases h with
  | nil hn => exact .nil (.plain hk hn)
  | cons hn hl h => exact .cons (.plain hk hn) hl h

/-- A bracket that is opened is closed behind a well-nested word, and joins it to the
next one. -/
theorem Unwinds.opened (hk : k.opened? = some b) (h : Unwinds (b :: st) ks) :
    Unwinds st (k :: ks) := by
  cases h with
  | cons hn hl h =>
    cases h with
    | nil hn' => exact .nil (.pair hk hl hn hn')
    | cons hn' hl' h =>
      have hjoined := Unwinds.cons (.pair hk hl hn hn') hl' h
      rwa [List.append_assoc] at hjoined

theorem unwinds_of_nest (h : nest st ks = some []) : Unwinds st ks := by
  induction ks generalizing st with
  | nil =>
    cases h
    exact .nil .nil
  | cons k ks ih =>
    rw [nest, nestOne] at h
    split at h
    · rename_i hk
      exact .opened hk (ih h)
    · rename_i ho hc
      exact .plain (by rw [Kind.isPlain, ho, hc]; rfl) (ih h)
    · rename_i hc
      split at h
      · rename_i hst
        obtain ⟨st', rfl⟩ := List.head?_eq_some_iff.1 hst
        exact .cons .nil hc (ih h)
      · cases h

/-- A word that leaves no bracket open, and closes none that was not open, is well
nested. -/
theorem nested_of_nest (h : nest [] ks = some []) : Nested ks := by
  cases unwinds_of_nest h with
  | nil hn => exact hn

end Words

end ApexSyntax
