-- Listeners that hear several errors, one after the other. A collector keeps them all, in
-- their order.
import ApexSyntax.Listener

namespace ApexSyntax

namespace Listener

/-- The listeners after some errors, the first one first. -/
def hearEach (es : List SyntaxError) (ls : List Listener) : List Listener :=
  es.foldl (fun ls e => hearAll e ls) ls

@[simp] theorem hearEach_nil (ls : List Listener) : hearEach [] ls = ls := rfl

@[simp] theorem hearEach_cons (e : SyntaxError) (es : List SyntaxError) (ls : List Listener) :
    hearEach (e :: es) ls = hearEach es (hearAll e ls) := rfl

theorem hearEach_append (es fs : List SyntaxError) (ls : List Listener) :
    hearEach (es ++ fs) ls = hearEach fs (hearEach es ls) := List.foldl_append

theorem stopsAt_hearEach (es : List SyntaxError) (ls : List Listener) :
    stopsAt (hearEach es ls) = stopsAt ls := by
  induction es generalizing ls with
  | nil => rfl
  | cons e es ih => rw [hearEach_cons, ih, stopsAt_hearAll]

/-- A listener that has heard some errors. A collector keeps them in their order. -/
def afterHearing (es : List SyntaxError) : Listener → Listener
  | throwing => throwing
  | collecting path echo kept =>
    collecting path echo (kept ++ (es.map (Diagnostic.ofError path)).toArray)
  | counting heard => counting (heard + es.length)

theorem afterHearing_nil : afterHearing [] = id := by
  funext l
  cases l <;> simp [afterHearing]

theorem afterHearing_hear (e : SyntaxError) (es : List SyntaxError) (l : Listener) :
    (l.hear e).afterHearing es = l.afterHearing (e :: es) := by
  cases l with
  | throwing => rfl
  | collecting path echo kept => simp [afterHearing, hear]
  | counting heard => simp [afterHearing, hear, Nat.add_assoc, Nat.add_comm 1]

/-- Without a throwing listener, every listener hears all errors. -/
theorem hearEach_eq_map {ls : List Listener} (h : stopsAt ls = false) (es : List SyntaxError) :
    hearEach es ls = ls.map (afterHearing es) := by
  induction es generalizing ls with
  | nil => simp [afterHearing_nil]
  | cons e es ih =>
    rw [hearEach_cons, ih (by rw [stopsAt_hearAll, h]), hearAll_eq_map e h, List.map_map]
    exact List.map_congr_left fun l _ => afterHearing_hear e es l

theorem hearEach_collecting (es : List SyntaxError) (path : String) (echo : Bool)
    (kept : Array Diagnostic) :
    hearEach es [collecting path echo kept] =
      [collecting path echo (kept ++ (es.map (Diagnostic.ofError path)).toArray)] :=
  hearEach_eq_map rfl es

/-- A collector among listeners that do not throw keeps all errors. -/
theorem kept_hearEach {ls : List Listener} (h : stopsAt ls = false) {i : Nat}
    {path : String} {echo : Bool} {kept : Array Diagnostic}
    (hi : ls[i]? = some (.collecting path echo kept)) (es : List SyntaxError) :
    (hearEach es ls)[i]? =
      some (.collecting path echo (kept ++ (es.map (Diagnostic.ofError path)).toArray)) := by
  rw [hearEach_eq_map h, List.getElem?_map, hi]
  rfl

/-- The first listener that throws divides the others: those before it hear the error, and
those behind it hear nothing. -/
theorem exists_hearAll_eq {ls : List Listener} (h : stopsAt ls = true) (e : SyntaxError) :
    ∃ before behind, ls = before ++ throwing :: behind ∧ stopsAt before = false ∧
      hearAll e ls = before.map (hear e) ++ throwing :: behind := by
  induction ls with
  | nil => cases h
  | cons l ls ih =>
    by_cases hl : l.isThrowing = true
    · obtain rfl : l = throwing := by
        cases l with
        | throwing => rfl
        | collecting | counting => cases hl
      exact ⟨[], ls, rfl, rfl, rfl⟩
    · have hrest : stopsAt ls = true := by simpa [stopsAt, hl] using h
      obtain ⟨before, behind, rfl, hbefore, hheard⟩ := ih hrest
      refine ⟨l :: before, behind, rfl, ?_, ?_⟩
      · simpa [stopsAt, hl] using hbefore
      · rw [hearAll, if_neg hl, hheard]
        rfl

end Listener

end ApexSyntax
