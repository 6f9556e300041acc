-- Types as phrases of the tokens ahead: what stands from one place up to another, whatever
-- scan looks there. The scan of a type passes every such phrase, up to its end, if what
-- stands behind it does not go on with it.
import ApexSyntax.Proofs.Parser.Scans

namespace ApexSyntax

/-- The phrases that types are made of: a type, a name with its arguments, names behind
dots, pairs of brackets, and types with commas between them. -/
inductive TypePhrase where
  | type | name | dotted | brackets | list

namespace Lookahead

/-- From one place ahead up to another stands a phrase. -/
inductive Spans (v : Lookahead) : TypePhrase → Nat → Nat → Prop
  | type {n i j m : Nat} (first : Spans v .name n i) (more : Spans v .dotted i j)
      (brackets : Spans v .brackets j m) : Spans v .type n m
  | plain {n : Nat} (name : v.isTypeName n = true) : Spans v .name n (n + 1)
  | generic {n m : Nat} (name : v.isTypeName n = true) (lt : v.kind (n + 1) = .mark .lt)
      (args : Spans v .list (n + 2) m) (gt : v.kind m = .mark .gt) : Spans v .name n (m + 1)
  | noDot {n : Nat} : Spans v .dotted n n
  | dot {n i m : Nat} (dot : v.kind n = .mark .dot) (name : Spans v .name (n + 1) i)
      (more : Spans v .dotted i m) : Spans v .dotted n m
  | noBracket {n : Nat} : Spans v .brackets n n
  | bracket {n m : Nat} (left : v.kind n = .mark .lBrack) (right : v.kind (n + 1) = .mark .rBrack)
      (more : Spans v .brackets (n + 2) m) : Spans v .brackets n m
  | one {n m : Nat} (last : Spans v .type n m) : Spans v .list n m
  | comma {n i m : Nat} (first : Spans v .type n i) (comma : v.kind i = .mark .comma)
      (more : Spans v .list (i + 1) m) : Spans v .list n m

/-- What stands there does not go on with the type before it: no list of arguments behind a
name, no name behind a dot, unless brackets stand before it, and no pair of brackets. -/
structure TypeStops (v : Lookahead) (n : Nat) : Prop where
  noArguments : v.isTypeName (n - 1) = true → v.kind n ≠ .mark .lt
  noName : v.kind (n - 1) ≠ .mark .rBrack → v.kind n = .mark .dot → v.isTypeName (n + 1) = false
  noBrackets : v.kind n = .mark .lBrack → v.kind (n + 1) ≠ .mark .rBrack

variable {v : Lookahead} {depth n i m : Nat} {s s' s'' : Bool × Nat × Nat}

theorem typeStops_of_kind {k : Kind} (h : v.kind n = k) (hlt : k ≠ .mark .lt)
    (hdot : k ≠ .mark .dot) (hbrack : k ≠ .mark .lBrack) : v.TypeStops n := by
  subst h
  exact ⟨fun _ => hlt, fun _ h => absurd h hdot, fun h => absurd h hbrack⟩

/-- The name of a type is neither the end of the text nor a mark. -/
theorem kind_ne_of_isTypeName (h : v.isTypeName n = true) :
    v.kind n ≠ .eof ∧ ∀ m, v.kind n ≠ .mark m := by
  rw [isTypeName, Token.isTypeName] at h
  constructor
  · intro heof
    rw [kind] at heof
    simp [Token.isIdentifier, heof, Kind.isSoftKeyword] at h
  · intro m hm
    rw [kind] at hm
    simp [Token.isIdentifier, hm, Kind.isSoftKeyword] at h

/-! ## Scans that go on -/

/-- What the scan comes to behind a type, with some lists of arguments open. -/
def typeClosed (v : Lookahead) (depth n : Nat) : (Bool × Nat × Nat) ⊕ Option Nat :=
  match depth with
  | 0 => .inr (some n)
  | outer + 1 =>
    if v.kind n == .mark .comma then .inl (false, outer + 1, n + 1)
    else if v.kind n == .mark .gt then .inl (true, outer, n + 1)
    else .inr none

theorem typeTurn_closed (h : v.kind n = .mark .dot → v.isTypeName (n + 1) = false) :
    v.typeTurn (true, depth, n) = v.typeClosed depth (v.dimensionsEnd v.left n) := by
  have hno : ¬(v.kind n == .mark .dot && v.isTypeName (n + 1)) = true := by
    simpa using h
  rw [typeTurn, if_neg hno]
  rfl

/-- The scan goes from one state on to another. -/
def Passes (v : Lookahead) (s s' : Bool × Nat × Nat) : Prop :=
  ∀ r, Ends v.typeTurn s' r → Ends v.typeTurn s r

theorem Passes.refl : v.Passes s s := fun _ hr => hr

theorem Passes.trans (h : v.Passes s s') (h' : v.Passes s' s'') : v.Passes s s'' :=
  fun r hr => h r (h' r hr)

theorem passes_turn (h : v.typeTurn s = .inl s') : v.Passes s s' := fun _ hr => .again h hr

/-! ## Phrases are passed -/

namespace Spans

theorem isTypeName (h : v.Spans .name n m) : v.isTypeName n = true := by
  cases h with
  | plain name => exact name
  | generic name => exact name

/-- Where no list of arguments opens behind names and dots, none opens in front of the
dots. -/
theorem dotted_noArguments (h : v.Spans .dotted n m)
    (hm : v.isTypeName (m - 1) = true → v.kind m ≠ .mark .lt) :
    v.isTypeName (n - 1) = true → v.kind n ≠ .mark .lt := by
  cases h with
  | noDot => exact hm
  | dot dot => simp [dot]

theorem brackets_noArguments (h : v.Spans .brackets n m)
    (hm : v.isTypeName (m - 1) = true → v.kind m ≠ .mark .lt) :
    v.isTypeName (n - 1) = true → v.kind n ≠ .mark .lt := by
  cases h with
  | noBracket => exact hm
  | bracket left => simp [left]

/-- Neither a name with its arguments nor names behind dots end with a bracket. -/
theorem last_ne_rBrack {phrase : TypePhrase} (h : v.Spans phrase n m) :
    match phrase with
    | .name => v.kind (m - 1) ≠ .mark .rBrack
    | .dotted => v.kind (n - 1) ≠ .mark .rBrack → v.kind (m - 1) ≠ .mark .rBrack
    | _ => True := by
  induction h with
  | plain name => exact (kind_ne_of_isTypeName name).2 _
  | generic _ _ _ gt => simp [gt]
  | noDot => exact id
  | dot _ _ _ name more => exact fun _ => more name
  | _ => trivial

theorem brackets_noName (h : v.Spans .brackets n m) (hm : v.TypeStops m)
    (hn : v.kind (n - 1) ≠ .mark .rBrack) :
    v.kind n = .mark .dot → v.isTypeName (n + 1) = false := by
  cases h with
  | noBracket => exact hm.noName hn
  | bracket left => simp [left]

/-- What the scan does at a phrase, when nothing behind the phrase goes on with it. -/
def Passed (v : Lookahead) : TypePhrase → Nat → Nat → Prop
  | .type, n, m => v.TypeStops m → ∀ depth, ∃ i, v.Passes (false, depth, n) (true, depth, i) ∧
      v.typeTurn (true, depth, i) = v.typeClosed depth m
  | .name, n, m => (v.isTypeName (m - 1) = true → v.kind m ≠ .mark .lt) →
      ∀ depth, v.Passes (false, depth, n) (true, depth, m)
  | .dotted, n, m => (v.isTypeName (m - 1) = true → v.kind m ≠ .mark .lt) →
      ∀ depth, v.Passes (true, depth, n) (true, depth, m)
  | .brackets, n, m => (v.kind m = .mark .lBrack → v.kind (m + 1) ≠ .mark .rBrack) →
      Ends v.dimensionsTurn n m
  | .list, n, m => v.kind m = .mark .gt →
      ∀ depth, v.Passes (false, depth + 1, n) (true, depth, m + 1)

/-- The scan passes every phrase. -/
theorem passed {phrase : TypePhrase} (h : v.Spans phrase n m) : Passed v phrase n m := by
  -- All sorts of phrases at once: a type holds lists of types.
  induction h with
  | @type n i j m hfirst hmore hbrackets first more brackets =>
    intro hm depth
    have hj : v.isTypeName (j - 1) = true → v.kind j ≠ .mark .lt :=
      hbrackets.brackets_noArguments hm.noArguments
    refine ⟨j, (first (hmore.dotted_noArguments hj) depth).trans (more hj depth), ?_⟩
    have hend : v.dimensionsEnd v.left j = m :=
      (brackets hm.noBrackets).unique (v.scansEnd.dimensions j)
    have hlast : v.kind (j - 1) ≠ .mark .rBrack := hmore.last_ne_rBrack hfirst.last_ne_rBrack
    rw [typeTurn_closed (hbrackets.brackets_noName hm hlast), hend]
  | plain name =>
    intro hm depth
    exact passes_turn (by simp [typeTurn, name, hm name])
  | @generic n m name lt _ gt args =>
    intro _ depth
    have hopen : v.typeTurn (false, depth, n) = .inl (false, depth + 1, n + 2) := by
      simp [typeTurn, name, lt]
    exact (passes_turn hopen).trans (args gt depth)
  | noDot => exact fun _ _ => .refl
  | @dot n i m dot hname hmore name more =>
    intro hm depth
    have hturn : v.typeTurn (true, depth, n) = .inl (false, depth, n + 1) := by
      simp [typeTurn, dot, hname.isTypeName]
    have hpass := name (hmore.dotted_noArguments hm) depth
    exact (passes_turn hturn).trans (hpass.trans (more hm depth))
  | noBracket =>
    intro hm
    exact .last (by simpa [dimensionsTurn] using hm)
  | bracket left right _ more =>
    intro hm
    exact .again (by simp [dimensionsTurn, left, right]) (more hm)
  | @one n m _ last =>
    intro hm depth
    obtain ⟨i, hpass, hturn⟩ :=
      last (typeStops_of_kind hm (by decide) (by decide) (by decide)) (depth + 1)
    have hclose : v.typeClosed (depth + 1) m = .inl (true, depth, m + 1) := by
      simp [typeClosed, hm]
    exact hpass.trans (passes_turn (hturn.trans hclose))
  | @comma n i m _ comma _ first more =>
    intro hm depth
    obtain ⟨j, hpass, hturn⟩ :=
      first (typeStops_of_kind comma (by decide) (by decide) (by decide)) (depth + 1)
    have hnext : v.typeClosed (depth + 1) i = .inl (false, depth + 1, i + 1) := by
      simp [typeClosed, comma]
    exact (hpass.trans (passes_turn (hturn.trans hnext))).trans (more hm depth)

/-- The scan finds the end of a type. -/
theorem typeEnd_eq (h : v.Spans .type n m) (hm : v.TypeStops m) : v.typeEnd? n = some m := by
  obtain ⟨i, hpass, hturn⟩ := h.passed hm 0
  exact (hpass _ (.last hturn)).unique (v.scansEnd.type n)

end Spans

end Lookahead

end ApexSyntax
