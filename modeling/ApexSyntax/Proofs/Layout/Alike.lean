-- What the parser sees ahead, up to a token that no decision looks past. Where the
-- same tokens come next up to such a token, all scans end at the same place and all
-- parts consist of the same steps, so neither what stands behind that token nor where
-- the tokens stand decides anything.
import ApexSyntax.Grammar.Parser
import ApexSyntax.Proofs.Parser.Parts
import ApexSyntax.Proofs.Parser.Scans

namespace ApexSyntax

/-! ## Loops that do the same -/

namespace Ends

variable {σ ρ : Type} {turn turn' : σ → σ ⊕ ρ} {s : σ} {r : ρ}

/-- A loop over the same turns ends with the same result, and what the turns keep holds
of it. -/
theorem carry {P : σ → Prop} {Q : ρ → Prop} (h : Ends turn s r)
    (same : ∀ s, P s → turn' s = turn s) (keeps : ∀ s, P s → Sum.elim P Q (turn s)) (hs : P s) :
    Ends turn' s r ∧ Q r := by
  induction h with
  | last ht =>
    have hq := keeps _ hs
    rw [ht] at hq
    exact ⟨.last ((same _ hs).trans ht), hq⟩
  | again ht _ ih =>
    have hp := keeps _ hs
    rw [ht] at hp
    obtain ⟨h, hq⟩ := ih hp
    exact ⟨.again ((same _ hs).trans ht) h, hq⟩

end Ends

/-! ## Tokens that no decision looks past -/

/-- The end of the text, a semicolon or a brace. -/
def Token.isBoundary (t : Token) : Bool :=
  t.word == "" && (t.kind == .eof || t.kind == .mark .semi || t.kind == .mark .rBrace ||
    t.kind == .mark .lBrace)

theorem Token.kind_of_isBoundary {t : Token} (h : t.isBoundary = true) :
    t.kind = .eof ∨ t.kind = .mark .semi ∨ t.kind = .mark .rBrace ∨ t.kind = .mark .lBrace := by
  simpa [isBoundary, or_assoc] using (Bool.and_eq_true_iff.1 h).2

theorem Token.word_of_isBoundary {t : Token} (h : t.isBoundary = true) : t.word = "" :=
  beq_iff_eq.1 (Bool.and_eq_true_iff.1 h).1

namespace Lookahead

/-! ## Members ahead -/

/-- A turn over what stands in front of a member. An annotation or a modifier other than
`final` decides at once. -/
def finalTurn (v : Lookahead) (n : Nat) : Nat ⊕ Bool :=
  if v.kind n == .keyword .finalKw then .inl (n + 1)
  else .inr (v.kind n == .mark .atSign || v.modifierLength n != 0 || v.declarationAhead n)

theorem memberAheadFrom_modified (v : Lookahead) (fuel n : Nat) :
    v.memberAheadFrom fuel true n = true := by
  induction fuel generalizing n with
  | zero => rfl
  | succ fuel ih =>
    simp only [memberAheadFrom, Bool.true_or, ih, ite_self]

theorem ends_memberAheadFrom_false {v : Lookahead} {fuel n : Nat} (h : v.left ≤ n + fuel) :
    Ends v.finalTurn n (v.memberAheadFrom fuel false n) := by
  induction fuel generalizing n with
  | zero =>
    have hk : v.kind n = .eof := kind_of_left_le h
    have hm : v.modifierLength n = 0 := modifierLength_of_left_le h
    exact .last (by simp [finalTurn, hk, hm, memberAheadFrom])
  | succ fuel ih =>
    by_cases hf : v.kind n = .keyword .finalKw
    · have hturn : v.finalTurn n = .inl (n + 1) := by simp [finalTurn, hf]
      refine .again hturn ?_
      have hm : v.memberAheadFrom (fuel + 1) false n = v.memberAheadFrom fuel false (n + 1) := by
        simp [memberAheadFrom, hf, modifierLength, Kind.isModifier]
      rw [hm]
      exact ih (by omega)
    · apply Ends.last
      have hf' : (v.kind n == .keyword .finalKw) = false := beq_false_of_ne hf
      have hf'' : (v.kind n != .keyword .finalKw) = true := by simp [hf]
      unfold memberAheadFrom
      by_cases ha : (v.kind n == .mark .atSign) = true
      · simp [finalTurn, hf', ha, memberAheadFrom_modified]
      · by_cases hz : v.modifierLength n = 0
        · simp [finalTurn, hf', ha, hz]
        · simp [finalTurn, hf', hf'', ha, hz, memberAheadFrom_modified]

theorem ends_memberAhead (v : Lookahead) : Ends v.finalTurn 0 v.memberAhead :=
  ends_memberAheadFrom_false (by omega)

/-! ## Places that no type goes past -/

end Lookahead

namespace Kind

/-- A mark inside of types and operands that a name, an argument or a bracket has to follow. -/
def dangles : Kind → Bool
  | mark .dot | mark .lt | mark .comma | mark .lBrack | mark .lParen => true
  | _ => false

/-- No token of this kind goes on a type before it. -/
def endsTypes : Kind → Bool
  | mark .dot | mark .lt | mark .gt | mark .comma | mark .lBrack => false
  | _ => true

end Kind

namespace Lookahead

/-- The same tokens come next up to a place that no type goes past. A name or a closing
bracket may stand there behind a token that does not ask for it. -/
structure Fronts (v w : Lookahead) (last : Nat) : Prop where
  kind : ∀ n < last, w.kind n = v.kind n
  ends : (v.kind last).endsTypes = true
  ends' : (w.kind last).endsTypes = true
  noName : v.isTypeName last = false
  noBracket : v.kind last ≠ .mark .rBrack
  behind : w.isTypeName last = true ∨ w.kind last = .mark .rBrack →
    (v.kind (last - 1)).dangles = false

theorem isTypeName_congr {v w : Lookahead} {n : Nat} (h : w.kind n = v.kind n) :
    w.isTypeName n = v.isTypeName n := by
  rw [kind, kind] at h
  rw [isTypeName, isTypeName, Token.isTypeName, Token.isTypeName, Token.isIdentifier,
    Token.isIdentifier, h]

namespace Fronts

variable {v w : Lookahead} {last n : Nat} {m : Mark}

theorem lt_of_mark (h : Fronts v w last) (hn : n ≤ last) (hv : (v.kind n == .mark m) = true)
    (hm : (Kind.mark m).endsTypes = false) : n < last := by
  apply Nat.lt_of_le_of_ne hn
  rintro rfl
  have hends := h.ends
  rw [beq_iff_eq.1 hv, hm] at hends
  cases hends

/-- A mark that a type goes on with stands in both places or in none. -/
theorem atMark (h : Fronts v w last) (hn : n ≤ last) (hm : (Kind.mark m).endsTypes = false) :
    (w.kind n == .mark m) = (v.kind n == .mark m) := by
  rcases Nat.lt_or_eq_of_le hn with hlt | rfl
  · rw [h.kind n hlt]
  · rw [beq_false_of_ne, beq_false_of_ne]
    · intro hk
      have hends := h.ends
      rw [hk, hm] at hends
      cases hends
    · intro hk
      have hends := h.ends'
      rw [hk, hm] at hends
      cases hends

theorem isTypeName (h : Fronts v w last) (hn : n < last ∨ n = last ∧ w.isTypeName last = false) :
    w.isTypeName n = v.isTypeName n := by
  rcases hn with hn | ⟨rfl, hw⟩
  · exact isTypeName_congr (h.kind n hn)
  · rw [hw, h.noName]

/-- Behind a mark that asks for a name no name is at the last place only here. -/
theorem next (h : Fronts v w last) (hn : n < last) (hv : (v.kind n == .mark m) = true)
    (hm : (Kind.mark m).dangles = true) :
    n + 1 < last ∨ n + 1 = last ∧ w.isTypeName last = false := by
  rcases Nat.lt_or_eq_of_le (Nat.succ_le_of_lt hn) with hlt | rfl
  · exact .inl hlt
  · refine .inr ⟨rfl, Bool.eq_false_iff.2 fun hw => ?_⟩
    have hd := h.behind (.inl hw)
    rw [Nat.succ_sub_one, beq_iff_eq.1 hv, hm] at hd
    cases hd

theorem dimensionsTurn (h : Fronts v w last) (hn : n ≤ last) :
    w.dimensionsTurn n = v.dimensionsTurn n := by
  unfold Lookahead.dimensionsTurn
  rw [h.atMark hn rfl]
  by_cases hv : (v.kind n == .mark .lBrack) = true
  · have hlt := h.lt_of_mark hn hv rfl
    rcases Nat.lt_or_eq_of_le (Nat.succ_le_of_lt hlt) with hlt' | rfl
    · rw [h.kind (n + 1) hlt']
    · have hw : (w.kind (n + 1) == .mark .rBrack) = false := by
        refine beq_false_of_ne fun hw => ?_
        have hd := h.behind (.inr hw)
        rw [Nat.succ_sub_one, beq_iff_eq.1 hv] at hd
        cases hd
      rw [hw, beq_false_of_ne h.noBracket]
  · simp [hv]

theorem dimensionsEnd (h : Fronts v w last) (hn : n ≤ last) :
    w.dimensionsEnd w.left n = v.dimensionsEnd v.left n ∧ v.dimensionsEnd v.left n ≤ last := by
  have hv := (v.scansEnd.dimensions n).carry (P := (· ≤ last)) (Q := (· ≤ last))
    (fun s hs => h.dimensionsTurn hs) ?_ hn
  · exact ⟨hv.1.unique (w.scansEnd.dimensions n), hv.2⟩
  · intro s hs
    unfold Lookahead.dimensionsTurn
    split
    · rename_i hb
      rw [Bool.and_eq_true, beq_iff_eq (b := Kind.mark .rBrack)] at hb
      have hlt := h.lt_of_mark hs hb.1 rfl
      refine Nat.lt_of_le_of_ne hlt fun he => h.noBracket ?_
      rw [← he]
      exact hb.2
    · exact hs

/-- What holds at each turn of the scan: it has not gone past the place, and no name is
looked for there where only the other tokens have one. -/
def Scans (w : Lookahead) (last : Nat) (s : Bool × Nat × Nat) : Prop :=
  s.2.2 ≤ last ∧ (s.1 = false → s.2.2 < last ∨ s.2.2 = last ∧ w.isTypeName last = false)

theorem typeTurn (h : Fronts v w last) (s : Bool × Nat × Nat) (hs : Scans w last s) :
    w.typeTurn s = v.typeTurn s := by
  obtain ⟨named, depth, n⟩ := s
  have hn : n ≤ last := hs.1
  cases named with
  | false =>
    simp only [Lookahead.typeTurn, h.isTypeName (hs.2 rfl)]
    by_cases hv : v.isTypeName n = true
    · have hlt : n < last := by
        refine Nat.lt_of_le_of_ne hn ?_
        rintro rfl
        rw [h.noName] at hv
        cases hv
      rw [h.atMark (n := n + 1) hlt rfl]
    · simp only [hv, if_false, Bool.false_eq_true]
  | true =>
    obtain ⟨hd, hle⟩ := h.dimensionsEnd hn
    have hdot : (w.kind n == .mark .dot && w.isTypeName (n + 1)) =
        (v.kind n == .mark .dot && v.isTypeName (n + 1)) := by
      rw [h.atMark hn rfl]
      by_cases hv : (v.kind n == .mark .dot) = true
      · rw [h.isTypeName (h.next (h.lt_of_mark hn hv rfl) hv rfl)]
      · simp [hv]
    simp only [Lookahead.typeTurn, hdot, hd, h.atMark (m := .comma) hle rfl,
      h.atMark (m := .gt) hle rfl]

/-- A turn over a type does not go past the place. -/
theorem typeTurn_le (h : Fronts v w last) (s : Bool × Nat × Nat) (hs : Scans w last s) :
    Sum.elim (Scans w last) (fun r => ∀ m, r = some m → m ≤ last) (v.typeTurn s) := by
  obtain ⟨named, depth, n⟩ := s
  have hn : n ≤ last := hs.1
  -- A mark is passed, and a name has to follow.
  have hmark : ∀ {depth n : Nat} {m : Mark}, n ≤ last → (v.kind n == .mark m) = true →
      (Kind.mark m).endsTypes = false → (Kind.mark m).dangles = true →
      Scans w last (false, depth, n + 1) :=
    fun hn hv he hd => ⟨h.lt_of_mark hn hv he, fun _ => h.next (h.lt_of_mark hn hv he) hv hd⟩
  cases named with
  | false =>
    simp only [Lookahead.typeTurn]
    split
    · rename_i hb
      have hlt : n < last := by
        refine Nat.lt_of_le_of_ne hn ?_
        rintro rfl
        rw [h.noName] at hb
        cases hb
      split
      · exact hmark hlt ‹_› rfl rfl
      · exact ⟨hlt, fun hn => absurd hn.symm Bool.false_ne_true⟩
    · rintro m ⟨⟩
  | true =>
    have hle := (h.dimensionsEnd hn).2
    simp only [Lookahead.typeTurn]
    split
    · exact hmark hn (Bool.and_eq_true_iff.1 ‹_›).1 rfl rfl
    · split
      · rintro m ⟨⟩
        exact hle
      · split
        · exact hmark hle ‹_› rfl rfl
        · split
          · exact ⟨h.lt_of_mark hle ‹_› rfl, fun hn => absurd hn.symm Bool.false_ne_true⟩
          · rintro m ⟨⟩

/-- The scan of a type ends at the same place, and not past the last one. -/
theorem typeEnd? (h : Fronts v w last) (hn : n < last ∨ n = last ∧ w.isTypeName last = false) :
    w.typeEnd? n = v.typeEnd? n ∧ ∀ m, v.typeEnd? n = some m → m ≤ last := by
  have hle : n ≤ last := by omega
  have hv := (v.scansEnd.type n).carry h.typeTurn h.typeTurn_le ⟨hle, fun _ => hn⟩
  exact ⟨hv.1.unique (w.scansEnd.type n), hv.2⟩

end Fronts

/-! ## Places with the same tokens ahead -/

/-- The tokens ahead of two places are the same up to one that no decision looks past. -/
structure Alike (v w : Lookahead) (last : Nat) : Prop where
  kind : ∀ n ≤ last, w.kind n = v.kind n
  word : ∀ n ≤ last, w.word n = v.word n
  boundary : (v.nth last).isBoundary = true

namespace Alike

variable {v w : Lookahead} {last n : Nat}

theorem isIdentifier (h : Alike v w last) (hn : n ≤ last) :
    w.isIdentifier n = v.isIdentifier n := by
  have hk := h.kind n hn
  rw [Lookahead.kind, Lookahead.kind] at hk
  rw [Lookahead.isIdentifier, Lookahead.isIdentifier, Token.isIdentifier, Token.isIdentifier, hk]

theorem isTypeName (h : Alike v w last) (hn : n ≤ last) : w.isTypeName n = v.isTypeName n :=
  isTypeName_congr (h.kind n hn)

theorem isWord (h : Alike v w last) (hn : n ≤ last) : w.isWord n = v.isWord n := by
  have hw := h.word n hn
  rw [Lookahead.word, Lookahead.word] at hw
  rw [Lookahead.isWord, Lookahead.isWord, Token.isWord, Token.isWord, hw]

theorem kind_last (h : Alike v w last) :
    v.kind last = .eof ∨ v.kind last = .mark .semi ∨ v.kind last = .mark .rBrace ∨
      v.kind last = .mark .lBrace :=
  Token.kind_of_isBoundary h.boundary

theorem word_last (h : Alike v w last) : v.word last = "" := Token.word_of_isBoundary h.boundary

theorem isWord_last (h : Alike v w last) : v.isWord last = false := by
  rw [Lookahead.isWord, Token.isWord, show (v.nth last).word = "" from h.word_last]
  rfl

theorem not_isTypeName (h : Alike v w last) : v.isTypeName last = false := by
  rcases h.kind_last with hk | hk | hk | hk <;>
    simp [Lookahead.isTypeName, Token.isTypeName, Token.isIdentifier, Kind.isSoftKeyword,
      show (v.nth last).kind = _ from hk]

theorem isIdentifier_last (h : Alike v w last) : v.isIdentifier last = false := by
  have hn := h.not_isTypeName
  rw [Lookahead.isTypeName, Token.isTypeName, Bool.or_assoc, Bool.or_eq_false_iff] at hn
  exact hn.1

theorem lt_of_isTypeName (h : Alike v w last) (hn : n ≤ last) (hv : v.isTypeName n = true) :
    n < last := by
  apply Nat.lt_of_le_of_ne hn
  rintro rfl
  rw [h.not_isTypeName] at hv
  cases hv

theorem lt_of_isIdentifier (h : Alike v w last) (hn : n ≤ last) (hv : v.isIdentifier n = true) :
    n < last := by
  refine h.lt_of_isTypeName hn ?_
  rw [Lookahead.isTypeName, Token.isTypeName, show (v.nth n).isIdentifier = true from hv]
  rfl

/-- A mark that no boundary is stands before it. -/
theorem lt_of_mark (h : Alike v w last) (hn : n ≤ last) {m : Mark}
    (hv : (v.kind n == .mark m) = true) (hm : m ≠ .semi ∧ m ≠ .rBrace ∧ m ≠ .lBrace) : n < last := by
  apply Nat.lt_of_le_of_ne hn
  rintro rfl
  rw [beq_iff_eq] at hv
  rcases h.kind_last with hk | hk | hk | hk <;> rw [hv] at hk <;> simp_all

/-! ## Scans -/

theorem fronts (h : Alike v w last) : Fronts v w last where
  kind n hn := h.kind n (Nat.le_of_lt hn)
  ends := by rcases h.kind_last with hk | hk | hk | hk <;> rw [hk] <;> rfl
  ends' := by
    rw [h.kind last (Nat.le_refl _)]
    rcases h.kind_last with hk | hk | hk | hk <;> rw [hk] <;> rfl
  noName := h.not_isTypeName
  noBracket := by rcases h.kind_last with hk | hk | hk | hk <;> rw [hk] <;> nofun
  behind := by
    rw [h.isTypeName (Nat.le_refl _), h.not_isTypeName, h.kind last (Nat.le_refl _)]
    rcases h.kind_last with hk | hk | hk | hk <;> simp [hk]

theorem typeEnd? (h : Alike v w last) (hn : n ≤ last) :
    w.typeEnd? n = v.typeEnd? n ∧ ∀ m, v.typeEnd? n = some m → m ≤ last := by
  refine h.fronts.typeEnd? ((Nat.lt_or_eq_of_le hn).imp_right fun he => ⟨he, ?_⟩)
  rw [h.isTypeName (Nat.le_refl _), h.not_isTypeName]

/-- A name, and what is asked of the kind behind it. -/
theorem behindName (h : Alike v w last) {m : Nat} (hm : m ≤ last) (f : Kind → Bool) :
    (w.isIdentifier m && f (w.kind (m + 1))) = (v.isIdentifier m && f (v.kind (m + 1))) := by
  rw [h.isIdentifier hm]
  by_cases hv : v.isIdentifier m = true
  · rw [h.kind _ (h.lt_of_isIdentifier hm hv)]
  · simp [hv]

theorem typedNameAhead (h : Alike v w last) (hn : n ≤ last) (follows : Kind → Bool) :
    w.typedNameAhead n follows = v.typedNameAhead n follows := by
  obtain ⟨ht, hle⟩ := h.typeEnd? hn
  unfold Lookahead.typedNameAhead
  rw [ht]
  cases hv : v.typeEnd? n with
  | none => rfl
  | some m => exact h.behindName (hle m hv) follows

theorem declarationAhead (h : Alike v w last) (hn : n ≤ last) :
    w.declarationAhead n = v.declarationAhead n := by
  obtain ⟨ht, hle⟩ := h.typeEnd? hn
  unfold Lookahead.declarationAhead
  rw [h.kind n hn, ht]
  cases hv : v.typeEnd? n with
  | none => rfl
  | some m =>
    exact congrArg _ (h.behindName (hle m hv) fun k => k == .mark .lParen || k == .mark .lBrace)

theorem modifierLength (h : Alike v w last) (hn : n ≤ last) :
    w.modifierLength n = v.modifierLength n := by
  rcases Nat.lt_or_eq_of_le hn with hlt | rfl
  · simp only [Lookahead.modifierLength, h.kind n hn, h.kind (n + 1) hlt]
  · rcases h.kind_last with hk | hk | hk | hk <;>
      simp [Lookahead.modifierLength, h.kind n hn, hk, Kind.isModifier]

/-- Only `final` is read over on the way to a member. -/
theorem finalTurn (h : Alike v w last) (hn : n ≤ last) :
    w.finalTurn n = v.finalTurn n := by
  unfold Lookahead.finalTurn
  rw [h.kind n hn, h.modifierLength hn, h.declarationAhead hn]

theorem memberAhead (h : Alike v w last) : w.memberAhead = v.memberAhead := by
  have hv := v.ends_memberAhead.carry (P := (· ≤ last)) (Q := fun _ => True)
    (fun s hs => h.finalTurn hs) ?_ (Nat.zero_le last)
  · exact hv.1.unique w.ends_memberAhead
  · intro n hn
    unfold Lookahead.finalTurn
    split
    · rename_i hk
      refine Nat.lt_of_le_of_ne hn ?_
      rintro rfl
      rw [beq_iff_eq] at hk
      rcases h.kind_last with hl | hl | hl | hl <;> rw [hk] at hl <;> cases hl
    · trivial

theorem castAhead (h : Alike v w last) (h1 : 1 ≤ last) : w.castAhead = v.castAhead := by
  obtain ⟨ht, hle⟩ := h.typeEnd? h1
  unfold Lookahead.castAhead
  rw [ht]
  cases hv : v.typeEnd? 1 with
  | none => rfl
  | some m =>
    dsimp only
    rw [h.kind m (hle m hv)]
    by_cases hm : (v.kind m == .mark .rParen) = true
    · rw [h.kind _ (h.lt_of_mark (hle m hv) hm (by decide))]
    · simp [hm]

theorem classReferenceAhead (h : Alike v w last) (h1 : 1 ≤ last) :
    w.classReferenceAhead = v.classReferenceAhead := by
  obtain ⟨ht, hle⟩ := h.typeEnd? (Nat.zero_le last)
  unfold Lookahead.classReferenceAhead
  rw [h.kind 1 h1, ht]
  cases hv : v.typeEnd? 0 with
  | none => rfl
  | some m =>
    dsimp only
    rw [h.kind m (hle m hv)]
    by_cases hm : (v.kind m == .mark .dot) = true
    · rw [h.word _ (h.lt_of_mark (hle m hv) hm (by decide))]
    · simp [hm]

end Alike

end Lookahead

/-! ## Steps of the parts -/

/-- The step as it is performed `d` tokens further on. -/
def Step.shifted (d : Nat) : Step → Step
  | progress since => progress (since + d)
  | expectThen e next => expectThen e (next.shifted d)
  | s => s

theorem Step.shifted_zero (s : Step) : s.shifted 0 = s := by
  induction s using Step.shifted.induct with
  | case1 since => rfl
  | case2 e next ih => rw [shifted, ih]
  | case3 s hp he =>
    cases s with
    | progress since => exact absurd rfl (hp since)
    | expectThen e next => exact absurd rfl (he e next)
    | _ => rfl

theorem Step.map_shifted_zero (ss : List Step) : ss.map (Step.shifted 0) = ss := by
  rw [show Step.shifted 0 = id from funext shifted_zero, List.map_id]

section Parts

open Lookahead

variable {v w : Lookahead} {last d : Nat}

theorem TypePart.map_shifted (p : TypePart) (v : Lookahead) :
    (p.expand v).map (Step.shifted d) = p.expand v := by
  cases p <;> simp only [expand] <;> repeat' split
  all_goals rfl

theorem TypePart.expand_alike (h : Alike v w last) (p : TypePart) : p.expand w = p.expand v := by
  have hk := h.kind 0 (Nat.zero_le _)
  have hn := h.isTypeName (Nat.zero_le _)
  cases last with
  | zero =>
    rcases h.kind_last with h0 | h0 | h0 | h0 <;> cases p <;> simp [expand, atMark, hk, hn, h0]
  | succ last =>
    have hk1 := h.kind 1 (by omega)
    have hn1 := h.isTypeName (n := 1) (by omega)
    cases p <;> simp [expand, atMark, hk, hn, hk1, hn1]

theorem QueryPart.map_shifted (p : QueryPart) (v : Lookahead) :
    (p.expand v).map (Step.shifted d) = p.expand v := by
  cases p <;> simp only [expand, clause, selectEntrySteps, valueSteps] <;> repeat' split
  all_goals rfl

theorem QueryPart.expand_alike (h : Alike v w last) (p : QueryPart) :
    p.expand w = p.expand v := by
  have hk := h.kind 0 (Nat.zero_le _)
  have hw := h.word 0 (Nat.zero_le _)
  have hi := h.isIdentifier (Nat.zero_le _)
  have hs := h.isWord (Nat.zero_le _)
  cases last with
  | zero =>
    have h1 := h.isWord_last
    rcases h.kind_last with h0 | h0 | h0 | h0 <;> cases p <;>
      simp [expand, clause, selectEntrySteps, valueSteps, atMark, atWord, atAnyWord, aliasAhead,
        hk, hw, hi, hs, h0, h1, h.word_last, Kind.isLiteral, Kind.comparesFields]
  | succ last =>
    have hk1 := h.kind 1 (by omega)
    have hw1 := h.word 1 (by omega)
    have hs1 := h.isWord (n := 1) (by omega)
    cases p <;> simp [expand, clause, selectEntrySteps, valueSteps, atMark, atWord, atAnyWord,
      aliasAhead, hk, hw, hi, hs, hk1, hw1, hs1]

/-- Angles of one kind that stand side by side touch in both places, or in neither. -/
def Lookahead.AnglesAlike (v w : Lookahead) : Prop :=
  ∀ n m, m = .lt ∨ m = .gt → v.kind n = .mark m → v.kind (n + 1) = .mark m →
    w.touches n = v.touches n

theorem Lookahead.Alike.doubled (h : Alike v w last) {m : Mark} (hm : m = .lt ∨ m = .gt)
    (ht : v.kind 0 = .mark m → v.kind 1 = .mark m → w.touches 0 = v.touches 0) :
    w.doubled m = v.doubled m := by
  have hk := h.kind 0 (Nat.zero_le _)
  unfold Lookahead.doubled atMark
  rw [hk]
  by_cases h0 : v.kind 0 = .mark m
  · have hlt : 1 ≤ last := h.lt_of_mark (Nat.zero_le _) (beq_iff_eq.2 h0) (by
      rcases hm with rfl | rfl <;> decide)
    rw [h.kind 1 hlt]
    by_cases h1 : v.kind 1 = .mark m
    · rw [ht h0 h1]
    · rw [beq_false_of_ne h1, Bool.and_false, Bool.false_and, Bool.false_and]
  · rw [beq_false_of_ne h0, Bool.false_and, Bool.false_and, Bool.false_and, Bool.false_and]

/-- Only comparisons and shifts ask whether angles touch. -/
theorem Lookahead.operatorAhead_congr {level : Nat} (hk : w.kind 0 = v.kind 0)
    (hd : level = 7 ∨ level = 8 → w.doubled .lt = v.doubled .lt ∧ w.doubled .gt = v.doubled .gt)
    (ht : level = 8 → v.doubled .gt = true →
      (w.kind 2 == .mark .gt && w.touches 1) = (v.kind 2 == .mark .gt && v.touches 1)) :
    w.operatorAhead level = v.operatorAhead level := by
  unfold Lookahead.operatorAhead
  split
  case h_8 =>
    obtain ⟨hlt, hgt⟩ := hd (.inl rfl)
    simp [comparisonAhead, atMark, atKeyword, hk, hlt, hgt]
  case h_9 =>
    obtain ⟨hlt, hgt⟩ := hd (.inr rfl)
    rw [hlt, hgt]
    by_cases hv : v.doubled .gt = true
    · rw [ht rfl hv]
    · simp [hv]
  all_goals simp [atMark, hk]

theorem Lookahead.Alike.operatorAhead (h : Alike v w last) (ha : v.AnglesAlike w) (level : Nat) :
    w.operatorAhead level = v.operatorAhead level := by
  refine Lookahead.operatorAhead_congr (h.kind 0 (Nat.zero_le _))
    (fun _ => ⟨h.doubled (.inl rfl) (ha 0 .lt (.inl rfl)), h.doubled (.inr rfl) (ha 0 .gt (.inr rfl))⟩)
    fun _ hd => ?_
  simp only [Lookahead.doubled, atMark, Bool.and_eq_true] at hd
  have h2 : 1 < last :=
    h.lt_of_mark (h.lt_of_mark (Nat.zero_le _) hd.1.1 (by decide)) hd.1.2 (by decide)
  rw [h.kind 2 h2]
  by_cases h2 : v.kind 2 = .mark .gt
  · rw [ha 1 .gt (.inr rfl) (beq_iff_eq.1 hd.1.2) h2]
  · rw [beq_false_of_ne h2, Bool.false_and, Bool.false_and]

theorem ExprPart.map_shifted (p : ExprPart) (v : Lookahead) (mark : Nat) :
    (p.expand v mark).map (Step.shifted d) = p.expand v mark := by
  cases p with
  | primary =>
    exact primarySteps_cases (P := fun ss =>
      (Step.start .primaryExpression :: ss ++ [Step.finish]).map (Step.shifted d) =
        Step.start .primaryExpression :: ss ++ [Step.finish]) v
      rfl rfl rfl rfl rfl rfl rfl rfl rfl
  | _ =>
    simp only [expand, unarySteps, rightOperand]
    repeat' split
    all_goals rfl

theorem ExprPart.expand_alike (h : Alike v w last) (p : ExprPart) (mark : Nat)
    (ho : ∀ level m, p = .operators level m → w.operatorAhead level = v.operatorAhead level) :
    p.expand w mark = p.expand v mark := by
  have hk := h.kind 0 (Nat.zero_le _)
  have hn := h.isTypeName (Nat.zero_le _)
  have hs := h.isWord (Nat.zero_le _)
  cases p with
  | operators level m => simp only [expand, ho level m rfl]
  | _ =>
    clear ho
    cases last with
    | zero =>
      have h1 := h.isWord_last
      have h2 := h.not_isTypeName
      rcases h.kind_last with h0 | h0 | h0 | h0 <;>
        simp [expand, unarySteps, primarySteps, atMark, atKeyword, hk, hn, hs, h0, h1, h2,
          Kind.isLiteral, Kind.isAssignment]
    | succ last =>
      have hk1 := h.kind 1 (by omega)
      have hw1 := h.word 1 (by omega)
      have hc := h.castAhead (by omega)
      have hr := h.classReferenceAhead (by omega)
      simp [expand, unarySteps, primarySteps, atMark, atKeyword, hk, hn, hs, hk1, hw1, hc, hr]

theorem Lookahead.Alike.localVariableAhead (h : Alike v w last) :
    w.localVariableAhead = v.localVariableAhead := by
  simp only [Lookahead.localVariableAhead, atKeyword, h.kind 0 (Nat.zero_le _),
    h.typedNameAhead (Nat.zero_le _)]

theorem Lookahead.Alike.eachLoopAhead (h : Alike v w last) :
    w.eachLoopAhead = v.eachLoopAhead := by
  unfold Lookahead.eachLoopAhead atKeyword
  rw [h.kind 0 (Nat.zero_le _)]
  split
  · rename_i hf
    refine h.typedNameAhead (Nat.one_le_iff_ne_zero.2 ?_) _
    rintro rfl
    rw [beq_iff_eq] at hf
    rcases h.kind_last with h0 | h0 | h0 | h0 <;> rw [hf] at h0 <;> cases h0
  · exact h.typedNameAhead (Nat.zero_le _) _

/-- A way to open records comes next; only the two words of one are followed by a look at
the kind behind them. -/
theorem Lookahead.Alike.accessLevel (h : Alike v w last) :
    (w.word 0 == "as" && (w.word 1 == "user" || w.word 1 == "system") && w.kind 2 != .mark .semi) =
      (v.word 0 == "as" && (v.word 1 == "user" || v.word 1 == "system") &&
        v.kind 2 != .mark .semi) := by
  rw [h.word 0 (Nat.zero_le _)]
  cases last with
  | zero => simp [h.word_last]
  | succ last =>
    rw [h.word 1 (by omega)]
    cases last with
    | zero => simp [h.word_last]
    | succ last => rw [h.kind 2 (by omega)]

theorem statementSteps_alike (h : Alike v w last) : statementSteps w = statementSteps v := by
  have hk := h.kind 0 (Nat.zero_le _)
  have hi := h.isIdentifier (Nat.zero_le _)
  have hl := h.localVariableAhead
  have hd : dmlSteps w = dmlSteps v := by rw [dmlSteps, dmlSteps, atKeyword, atKeyword, hk]
  cases last with
  | zero => rcases h.kind_last with h0 | h0 | h0 | h0 <;> simp [statementSteps, hk, hi, hl, hd, h0]
  | succ last =>
    have hk1 := h.kind 1 (by omega)
    simp only [statementSteps, hk, hi, hl, hd, hk1]

theorem map_shifted_statementSteps (v : Lookahead) :
    (statementSteps v).map (Step.shifted d) = statementSteps v := by
  unfold statementSteps dmlSteps
  repeat' split
  all_goals rfl

theorem StmtPart.expand_alike (h : Alike v w last) (hp : w.position = v.position + d)
    (p : StmtPart) : p.expand w = (p.expand v).map (Step.shifted d) := by
  have hk := h.kind 0 (Nat.zero_le _)
  have hi := h.isIdentifier (Nat.zero_le _)
  have hl := h.localVariableAhead
  have he := h.eachLoopAhead
  have ha := h.accessLevel
  cases p with
  | statement =>
    simp [expand, statementSteps_alike h, map_shifted_statementSteps, Step.shifted]
  | _ =>
    cases last with
    | zero =>
      have h1 := h.isIdentifier_last
      rcases h.kind_last with h0 | h0 | h0 | h0 <;>
        simp [expand, untilBrace, loopControlSteps, whenValueSteps, atMark, atKeyword, atWord, hk,
          hi, hl, he, ha, h0, h1, hp, Step.shifted, Kind.isLiteral,
          apply_ite (List.map (Step.shifted d))]
    | succ last =>
      have hi1 := h.isIdentifier (n := 1) (by omega)
      simp [expand, untilBrace, loopControlSteps, whenValueSteps, atMark, atKeyword, atWord, hk,
        hi, hl, he, ha, hi1, hp, Step.shifted, apply_ite (List.map (Step.shifted d))]

theorem memberSteps_alike (h : Alike v w last) : memberSteps w = memberSteps v := by
  have hk := h.kind 0 (Nat.zero_le _)
  have hc : (w.isIdentifier 0 && w.kind 1 == .mark .lParen) =
      (v.isIdentifier 0 && v.kind 1 == .mark .lParen) :=
    h.behindName (Nat.zero_le _) fun k => k == .mark .lParen
  obtain ⟨ht, hle⟩ := h.typeEnd? (Nat.zero_le _)
  unfold memberSteps
  rw [hk, ht, hc]
  cases hv : v.typeEnd? 0 with
  | none => rfl
  | some m =>
    dsimp only
    rw [h.isIdentifier (hle m hv)]
    by_cases hm : v.isIdentifier m = true
    · rw [h.kind _ (h.lt_of_isIdentifier (hle m hv) hm)]
    · simp [hm]

theorem map_shifted_memberSteps (v : Lookahead) :
    (memberSteps v).map (Step.shifted d) = memberSteps v := by
  unfold memberSteps
  repeat' split
  all_goals rfl

theorem DeclPart.expand_alike (h : Alike v w last) (hp : w.position = v.position + d)
    (p : DeclPart) : p.expand w = (p.expand v).map (Step.shifted d) := by
  have hk := h.kind 0 (Nat.zero_le _)
  have hi := h.isIdentifier (Nat.zero_le _)
  have hs := h.isWord (Nat.zero_le _)
  have hm := h.memberAhead
  cases p with
  | member => simp [expand, memberSteps_alike h, map_shifted_memberSteps]
  | declaredType =>
    simp only [expand, hk]
    split <;> rfl
  | modifiers =>
    have hl := h.modifierLength (Nat.zero_le _)
    simp only [expand, atMark, hk, hl]
    by_cases ha : (v.kind 0 == .mark .atSign) = true
    · simp [ha, annotationSteps, Step.shifted]
    · cases v.modifierLength 0 <;> simp [ha, Step.shifted]
  | _ =>
    cases last with
    | zero =>
      have h1 := h.isIdentifier_last
      have h2 := h.isWord_last
      rcases h.kind_last with h0 | h0 | h0 | h0 <;>
        simp [expand, untilBrace, classMemberSteps, annotationValueSteps, atMark, atKeyword, hk, hi,
          hs, hm, h0, h1, h2, hp, Step.shifted, apply_ite (List.map (Step.shifted d))]
    | succ last =>
      have hk1 := h.kind 1 (by omega)
      simp [expand, untilBrace, classMemberSteps, annotationValueSteps, atMark, atKeyword, hk, hi,
        hs, hm, hk1, hp, Step.shifted, apply_ite (List.map (Step.shifted d))]

end Parts

end ApexSyntax
