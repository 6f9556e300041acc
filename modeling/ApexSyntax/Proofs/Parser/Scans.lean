-- Looking ahead always ends. Each scan of the tokens ahead is a loop; every turn
-- but the last passes a token before the end of the text, so the bound on its
-- turns is never used up.
import ApexSyntax.Grammar.Lookahead

namespace ApexSyntax

/-! ## Loops -/

/-- A loop ends with a result. A turn gives the state of the next turn, or the
result. -/
inductive Ends {σ ρ : Type} (turn : σ → σ ⊕ ρ) : σ → ρ → Prop
  | last {s : σ} {r : ρ} : turn s = .inr r → Ends turn s r
  | again {s s' : σ} {r : ρ} : turn s = .inl s' → Ends turn s' r → Ends turn s r

theorem Ends.unique {σ ρ : Type} {turn : σ → σ ⊕ ρ} {s : σ} {r r' : ρ} (h : Ends turn s r)
    (h' : Ends turn s r') : r' = r := by
  induction h with
  | last hs =>
    cases h' with
    | last hs' => rw [hs] at hs'; exact (Sum.inr.inj hs').symm
    | again hs' _ => rw [hs] at hs'; cases hs'
  | again hs _ ih =>
    cases h' with
    | last hs' => rw [hs] at hs'; cases hs'
    | again hs' h' =>
      rw [hs] at hs'
      cases hs'
      exact ih h'

namespace Lookahead

variable {v : Lookahead}

/-- What is not the end of the text stands before it. -/
theorem lt_left {n : Nat} (h : v.kind n ≠ .eof) : n < v.left := by
  have hlt : v.position + n < v.stream.visible.size := by
    apply Nat.lt_of_not_le
    intro hle
    exact h ((v.stream.kind_nth_eq_eof_iff _).2 hle)
  unfold left
  omega

theorem kind_of_left_le {n : Nat} (h : v.left ≤ n) : v.kind n = .eof := by
  apply Classical.byContradiction
  intro hn
  exact Nat.not_lt.2 h (lt_left hn)

theorem lt_left_of_mark {n : Nat} {m : Mark} (h : (v.kind n == .mark m) = true) : n < v.left := by
  apply lt_left
  rw [beq_iff_eq.1 h]
  exact nofun

theorem nth_of_left_le {n : Nat} (h : v.left ≤ n) : v.nth n = v.stream.eof := by
  have hk := kind_of_left_le h
  exact TokenStream.nth_of_le ((v.stream.kind_nth_eq_eof_iff _).1 hk)

theorem lt_left_of_isTypeName {n : Nat} (h : v.isTypeName n = true) : n < v.left := by
  apply Nat.lt_of_not_le
  intro hle
  simp [isTypeName, nth_of_left_le hle, Token.isTypeName, Token.isIdentifier,
    Kind.isSoftKeyword] at h

theorem lt_left_of_isWord {n : Nat} (h : v.isWord n = true) : n < v.left := by
  apply Nat.lt_of_not_le
  intro hle
  simp [isWord, nth_of_left_le hle, Token.isWord] at h

/-! ## Turns -/

/-- A turn over pairs of brackets. -/
def dimensionsTurn (v : Lookahead) (n : Nat) : Nat ⊕ Nat :=
  if v.kind n == .mark .lBrack && v.kind (n + 1) == .mark .rBrack then .inl (n + 2) else .inr n

/-- A turn over the names, arguments and brackets of a type. -/
def typeTurn (v : Lookahead) : Bool × Nat × Nat → (Bool × Nat × Nat) ⊕ Option Nat
  | (false, depth, n) =>
    if v.isTypeName n then
      if v.kind (n + 1) == .mark .lt then .inl (false, depth + 1, n + 2)
      else .inl (true, depth, n + 1)
    else .inr none
  | (true, depth, n) =>
    if v.kind n == .mark .dot && v.isTypeName (n + 1) then .inl (false, depth, n + 1)
    else
      let m := v.dimensionsEnd v.left n
      match depth with
      | 0 => .inr (some m)
      | outer + 1 =>
        if v.kind m == .mark .comma then .inl (false, outer + 1, m + 1)
        else if v.kind m == .mark .gt then .inl (true, outer, m + 1)
        else .inr none

/-- A turn over what stands between parentheses. -/
def groupTurn (v : Lookahead) : Nat × Nat → (Nat × Nat) ⊕ Nat
  | (depth, n) =>
    match v.kind n with
    | .mark .lParen => .inl (depth + 1, n + 1)
    | .mark .rParen => if depth ≤ 1 then .inr (n + 1) else .inl (depth - 1, n + 1)
    | .eof => .inr n
    | _ => .inl (depth, n + 1)

/-- A turn over the words of a dotted name. -/
def dottedNameTurn (v : Lookahead) (n : Nat) : Nat ⊕ Nat :=
  if v.isWord n then if v.kind (n + 1) == .mark .dot then .inl (n + 2) else .inr (n + 1)
  else .inr n

/-- A turn over the annotations and modifiers of a member. -/
def memberTurn (v : Lookahead) : Bool × Nat → (Bool × Nat) ⊕ Bool
  | (modified, n) =>
    if v.kind n == .mark .atSign then .inl (true, v.annotationEnd (n + 1))
    else
      let size := v.modifierLength n
      if size = 0 then .inr (modified || v.declarationAhead n)
      else .inl (modified || v.kind n != .keyword .finalKw, n + size)

/-! ## All scans end -/

theorem le_dimensionsEnd (v : Lookahead) (fuel n : Nat) : n ≤ v.dimensionsEnd fuel n := by
  induction fuel generalizing n with
  | zero => exact Nat.le_refl n
  | succ fuel ih =>
    unfold dimensionsEnd
    split
    · exact Nat.le_trans (by omega) (ih (n + 2))
    · exact Nat.le_refl n

theorem ends_dimensionsEnd {fuel n : Nat} (h : v.left ≤ n + fuel) :
    Ends v.dimensionsTurn n (v.dimensionsEnd fuel n) := by
  induction fuel generalizing n with
  | zero =>
    have hk : v.kind n = .eof := kind_of_left_le h
    exact .last (by rw [dimensionsTurn, hk]; rfl)
  | succ fuel ih =>
    unfold dimensionsEnd
    split
    · rename_i hc
      exact .again (by rw [dimensionsTurn, if_pos hc]) (ih (by omega))
    · rename_i hc
      exact .last (by rw [dimensionsTurn, if_neg hc])

/-- Behind a token of the type, the bound is not used up. -/
theorem ends_typeEndFrom {fuel depth n : Nat} {named : Bool} (h : v.left < n + fuel)
    (hf : 0 < fuel) : Ends v.typeTurn (named, depth, n) (v.typeEndFrom fuel named depth n) := by
  induction fuel generalizing named depth n with
  | zero => omega
  | succ fuel ih =>
    cases named with
    | false =>
      unfold typeEndFrom
      split
      · rename_i hn
        have hlt := lt_left_of_isTypeName hn
        split
        · rename_i hm
          have hlt' := lt_left_of_mark hm
          exact .again (by rw [typeTurn, if_pos hn, if_pos hm]) (ih (by omega) (by omega))
        · rename_i hm
          exact .again (by rw [typeTurn, if_pos hn, if_neg hm]) (ih (by omega) (by omega))
      · rename_i hn
        exact .last (by rw [typeTurn, if_neg hn])
    | true =>
      unfold typeEndFrom
      split
      · rename_i hd
        have hlt := lt_left_of_isTypeName (Bool.and_eq_true_iff.1 hd).2
        exact .again (by rw [typeTurn, if_pos hd]) (ih (by omega) (by omega))
      · rename_i hd
        have hle := le_dimensionsEnd v v.left n
        dsimp only
        split
        · exact .last (by rw [typeTurn, if_neg hd])
        · split
          · rename_i hc
            have hlt := lt_left_of_mark hc
            exact .again (by rw [typeTurn, if_neg hd]; simp only [if_pos hc])
              (ih (by omega) (by omega))
          · rename_i hc
            split
            · rename_i hg
              have hlt := lt_left_of_mark hg
              exact .again (by rw [typeTurn, if_neg hd]; simp only [if_neg hc, if_pos hg])
                (ih (by omega) (by omega))
            · rename_i hg
              exact .last (by rw [typeTurn, if_neg hd]; simp only [if_neg hc, if_neg hg])

theorem le_groupEnd (v : Lookahead) (fuel depth n : Nat) : n ≤ v.groupEnd fuel depth n := by
  induction fuel generalizing depth n with
  | zero => exact Nat.le_refl n
  | succ fuel ih =>
    unfold groupEnd
    split
    · exact Nat.le_trans (by omega) (ih (depth + 1) (n + 1))
    · split
      · omega
      · exact Nat.le_trans (by omega) (ih (depth - 1) (n + 1))
    · exact Nat.le_refl n
    · exact Nat.le_trans (by omega) (ih depth (n + 1))

theorem ends_groupEnd {fuel depth n : Nat} (h : v.left ≤ n + fuel) :
    Ends v.groupTurn (depth, n) (v.groupEnd fuel depth n) := by
  induction fuel generalizing depth n with
  | zero =>
    have hk : v.kind n = .eof := kind_of_left_le h
    exact .last (by simp only [groupTurn, hk]; rfl)
  | succ fuel ih =>
    unfold groupEnd
    split
    · rename_i hk
      exact .again (by simp only [groupTurn, hk]) (ih (by omega))
    · rename_i hk
      split
      · rename_i hd
        exact .last (by simp only [groupTurn, hk, if_pos hd])
      · rename_i hd
        exact .again (by simp only [groupTurn, hk, if_neg hd]) (ih (by omega))
    · rename_i hk
      exact .last (by simp only [groupTurn, hk])
    · rename_i h1 h2 h3
      have hturn : v.groupTurn (depth, n) = .inl (depth, n + 1) := by
        unfold groupTurn
        dsimp only
        split <;> first | rfl | contradiction
      exact .again hturn (ih (by omega))

theorem le_dottedNameEnd (v : Lookahead) (fuel n : Nat) : n ≤ v.dottedNameEnd fuel n := by
  induction fuel generalizing n with
  | zero => exact Nat.le_refl n
  | succ fuel ih =>
    unfold dottedNameEnd
    split
    · split
      · exact Nat.le_trans (by omega) (ih (n + 2))
      · omega
    · exact Nat.le_refl n

theorem ends_dottedNameEnd {fuel n : Nat} (h : v.left ≤ n + fuel) :
    Ends v.dottedNameTurn n (v.dottedNameEnd fuel n) := by
  induction fuel generalizing n with
  | zero =>
    have hw : ¬ v.isWord n = true := fun hw => absurd (lt_left_of_isWord hw) (by omega)
    exact .last (by rw [dottedNameTurn, if_neg hw]; rfl)
  | succ fuel ih =>
    unfold dottedNameEnd
    split
    · rename_i hw
      split
      · rename_i hd
        exact .again (by rw [dottedNameTurn, if_pos hw, if_pos hd]) (ih (by omega))
      · rename_i hd
        exact .last (by rw [dottedNameTurn, if_pos hw, if_neg hd])
    · rename_i hw
      exact .last (by rw [dottedNameTurn, if_neg hw])

theorem le_annotationEnd (v : Lookahead) (n : Nat) : n ≤ v.annotationEnd n := by
  have h := le_dottedNameEnd v v.left n
  unfold annotationEnd
  dsimp only
  split
  · exact Nat.le_trans h (le_groupEnd v _ 0 _)
  · exact h

theorem modifierLength_of_left_le {n : Nat} (h : v.left ≤ n) : v.modifierLength n = 0 := by
  rw [modifierLength, kind_of_left_le h]
  rfl

theorem ends_memberAheadFrom {fuel n : Nat} {modified : Bool} (h : v.left ≤ n + fuel) :
    Ends v.memberTurn (modified, n) (v.memberAheadFrom fuel modified n) := by
  induction fuel generalizing modified n with
  | zero =>
    have hk : v.kind n = .eof := kind_of_left_le h
    have hm : v.modifierLength n = 0 := modifierLength_of_left_le h
    exact .last (by simp only [memberTurn, hk, hm]; rfl)
  | succ fuel ih =>
    unfold memberAheadFrom
    split
    · rename_i ha
      have hle := le_annotationEnd v (n + 1)
      exact .again (by rw [memberTurn, if_pos ha]) (ih (by omega))
    · rename_i ha
      dsimp only
      split
      · rename_i hz
        exact .last (by rw [memberTurn, if_neg ha]; simp only [if_pos hz])
      · rename_i hz
        exact .again (by rw [memberTurn, if_neg ha]; simp only [if_neg hz]) (ih (by omega))

/-- Every scan of the tokens ahead ends, with the result that the parser goes by:
types with their brackets, groups in parentheses, dotted names, and members. -/
structure ScansEnd (v : Lookahead) : Prop where
  dimensions (n : Nat) : Ends v.dimensionsTurn n (v.dimensionsEnd v.left n)
  type (n : Nat) : Ends v.typeTurn (false, 0, n) (v.typeEnd? n)
  group (n : Nat) : Ends v.groupTurn (0, n) (v.groupEnd (v.left + 1) 0 n)
  dottedName (n : Nat) : Ends v.dottedNameTurn n (v.dottedNameEnd v.left n)
  member : Ends v.memberTurn (false, 0) v.memberAhead

theorem scansEnd (v : Lookahead) : ScansEnd v where
  dimensions n := ends_dimensionsEnd (by omega)
  type n := ends_typeEndFrom (by omega) (by omega)
  group n := ends_groupEnd (by omega)
  dottedName n := ends_dottedNameEnd (by omega)
  member := ends_memberAheadFrom (by omega)

end Lookahead

end ApexSyntax
