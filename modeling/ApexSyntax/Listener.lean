-- What happens to a syntax error. Lexers and parsers hand every error to their
-- listeners in order; a throwing listener ends the run, and no listener behind
-- it hears of the error.
import ApexSyntax.Diagnostic

namespace ApexSyntax

inductive Listener where
  /-- Ends the run at the first error. -/
  | throwing
  /-- Keeps every error under a path. With `echo`, each is also written out as
  a line of JSON when it is heard. -/
  | collecting (path : String) (echo : Bool) (kept : Array Diagnostic)
  | counting (heard : Nat)
  deriving Repr

namespace Listener

def collector (path : String) : Listener := collecting path false #[]

def echoer (path : String) : Listener := collecting path true #[]

def counter : Listener := counting 0

def isThrowing : Listener → Bool
  | throwing => true
  | _ => false

/-- A listener after it has heard an error. -/
def hear (e : SyntaxError) : Listener → Listener
  | throwing => throwing
  | collecting path echo kept => collecting path echo (kept.push (Diagnostic.ofError path e))
  | counting heard => counting (heard + 1)

/-- The kept errors, for a listener that keeps any. -/
def diagnostics : Listener → Array Diagnostic
  | collecting _ _ kept => kept
  | _ => #[]

/-- The number of errors that were kept or counted. -/
def errorCount : Listener → Nat
  | throwing => 0
  | collecting _ _ kept => kept.size
  | counting heard => heard

/-! ## Lists of listeners -/

/-- The listeners after an error: all up to the first throwing one have heard
it. -/
def hearAll (e : SyntaxError) : List Listener → List Listener
  | [] => []
  | l :: rest => if l.isThrowing then l :: rest else l.hear e :: hearAll e rest

/-- An error ends the run when one of the listeners throws. -/
def stopsAt (listeners : List Listener) : Bool := listeners.any isThrowing

/-- All kept errors, listener by listener. -/
def allDiagnostics (listeners : List Listener) : List Diagnostic :=
  listeners.flatMap fun l => l.diagnostics.toList

/-! ## Laws -/

@[simp] theorem isThrowing_hear (e : SyntaxError) (l : Listener) :
    (l.hear e).isThrowing = l.isThrowing := by cases l <;> rfl

@[simp] theorem length_hearAll (e : SyntaxError) (ls : List Listener) :
    (hearAll e ls).length = ls.length := by
  induction ls with
  | nil => rfl
  | cons l ls ih => rw [hearAll]; split <;> simp [ih]

/-- Hearing an error changes no listener into a throwing one, nor back. -/
theorem stopsAt_hearAll (e : SyntaxError) (ls : List Listener) :
    stopsAt (hearAll e ls) = stopsAt ls := by
  induction ls with
  | nil => rfl
  | cons l ls ih =>
    rw [hearAll]; split
    · rfl
    · simp only [stopsAt] at ih; simp [stopsAt, ih]

/-- Without a throwing listener, every listener hears the error. -/
theorem hearAll_eq_map {ls : List Listener} (e : SyntaxError) (h : stopsAt ls = false) :
    hearAll e ls = ls.map (hear e) := by
  induction ls with
  | nil => rfl
  | cons l ls ih =>
    simp only [stopsAt, List.any_cons, Bool.or_eq_false_iff] at h
    simp [hearAll, h.1, ih h.2]

end Listener

end ApexSyntax
