-- What stands behind an operand. In front of a token that goes on no expression the parts of
-- types, expressions and queries see what they see at the end of the text, as long as the
-- last token in front of it is no mark that something has to follow.
import ApexSyntax.Proofs.Layout.Alike
import ApexSyntax.Proofs.Lookahead.TypePhrases
import ApexSyntax.Proofs.Parser.Forms

namespace ApexSyntax

/-- The token goes on no expression: the end of the text, a closing parenthesis or bracket, or
a name. -/
def Token.stopsOperands (t : Token) : Bool :=
  (t.kind == .eof || t.kind == .mark .rParen || t.kind == .mark .rBrack ||
    t.kind == .identifier) && t.word != "in"

namespace Lookahead

/-- The same tokens come next up to the end of the text, and in its place a token that goes on
no expression. -/
structure Stopped (v w : Lookahead) : Prop where
  kind : ∀ n < v.left, w.kind n = v.kind n
  word : ∀ n < v.left, w.word n = v.word n
  angles : v.AnglesAlike w
  stop : (w.nth v.left).stopsOperands = true
  last : (v.kind (v.left - 1)).dangles = false

/-- A closing parenthesis goes on with no type: a scan ends in front of it as it does in front
of another one, or at the end of the text. -/
theorem typeEnd?_of_closing {v w : Lookahead} {last n : Nat}
    (hkind : ∀ n < last, w.kind n = v.kind n)
    (hv : v.kind last = .mark .rParen ∨ v.kind last = .eof)
    (hw : w.kind last = .mark .rParen) (hn : n ≤ last) :
    w.typeEnd? n = v.typeEnd? n ∧ ∀ m, v.typeEnd? n = some m → m ≤ last := by
  have hname : w.isTypeName last = false :=
    Bool.eq_false_iff.2 fun h => (kind_ne_of_isTypeName h).2 _ hw
  have hfronts : Fronts v w last :=
    { kind := hkind
      ends := by rcases hv with hv | hv <;> rw [hv] <;> rfl
      ends' := by rw [hw]; rfl
      noName := Bool.eq_false_iff.2 fun h =>
        hv.elim ((kind_ne_of_isTypeName h).2 _) (kind_ne_of_isTypeName h).1
      noBracket := by rcases hv with hv | hv <;> rw [hv] <;> exact nofun
      behind := by rw [hname, hw]; exact fun hor => by simp at hor }
  exact hfronts.typeEnd? ((Nat.lt_or_eq_of_le hn).imp_right fun he => ⟨he, hname⟩)

namespace Stopped

variable {v w : Lookahead} {n : Nat} {m : Mark}

theorem kind_stop (h : Stopped v w) : w.kind v.left = .eof ∨ w.kind v.left = .mark .rParen ∨
    w.kind v.left = .mark .rBrack ∨ w.kind v.left = .identifier := by
  simpa [Token.stopsOperands, or_assoc, Lookahead.kind] using (Bool.and_eq_true_iff.1 h.stop).1

theorem word_stop (h : Stopped v w) : w.word v.left ≠ "in" :=
  bne_iff_ne.1 (Bool.and_eq_true_iff.1 h.stop).2

theorem kind_end (v : Lookahead) : v.kind v.left = .eof := kind_of_left_le (Nat.le_refl _)

/-- A mark that dangles is not the last token. -/
theorem next (h : Stopped v w) (hk : v.kind n = .mark m) (hm : (Kind.mark m).dangles = true) :
    n + 1 < v.left := by
  have hlt : n < v.left := lt_left (by rw [hk]; exact nofun)
  refine Nat.lt_of_le_of_ne hlt fun he => ?_
  have hd := h.last
  rw [← he, Nat.succ_sub_one, hk, hm] at hd
  cases hd

/-- A mark that closes no parentheses and no brackets stands in both places or in none. -/
theorem mark (h : Stopped v w) (hn : n ≤ v.left) (hm : m ≠ .rParen ∧ m ≠ .rBrack) :
    (w.kind n == .mark m) = (v.kind n == .mark m) := by
  rcases Nat.lt_or_eq_of_le hn with hlt | rfl
  · rw [h.kind n hlt]
  · rw [kind_end]
    rcases h.kind_stop with hk | hk | hk | hk <;> rw [hk, Bool.eq_iff_iff] <;>
      simp [hm.1.symm, hm.2.symm]

theorem isTypeName (h : Stopped v w) (hn : n < v.left) : w.isTypeName n = v.isTypeName n :=
  isTypeName_congr (h.kind n hn)

theorem isIdentifier (h : Stopped v w) (hn : n < v.left) :
    w.isIdentifier n = v.isIdentifier n := by
  have hk := h.kind n hn
  rw [Lookahead.kind, Lookahead.kind] at hk
  rw [Lookahead.isIdentifier, Lookahead.isIdentifier, Token.isIdentifier, Token.isIdentifier, hk]

theorem isWord (h : Stopped v w) (hn : n < v.left) : w.isWord n = v.isWord n := by
  have hw := h.word n hn
  rw [Lookahead.word, Lookahead.word] at hw
  rw [Lookahead.isWord, Lookahead.isWord, Token.isWord, Token.isWord, hw]

theorem isLiteral (h : Stopped v w) (hn : n ≤ v.left) :
    (w.kind n).isLiteral = (v.kind n).isLiteral := by
  rcases Nat.lt_or_eq_of_le hn with hlt | rfl
  · rw [h.kind n hlt]
  · rw [kind_end]
    rcases h.kind_stop with hk | hk | hk | hk <;> rw [hk] <;> rfl

/-- Behind a mark that dangles stands the same token. -/
theorem behind {b c : Bool} (h : Stopped v w) (hm : (Kind.mark m).dangles = true)
    (hb : 1 < v.left → c = b) : (v.kind 0 == .mark m && c) = (v.kind 0 == .mark m && b) := by
  by_cases hk : v.kind 0 = .mark m
  · rw [hb (h.next hk hm)]
  · rw [beq_false_of_ne hk, Bool.false_and, Bool.false_and]

/-! ## Scans -/

theorem fronts (h : Stopped v w) : Fronts v w v.left where
  kind := h.kind
  ends := by rw [kind_end]; rfl
  ends' := by rcases h.kind_stop with hk | hk | hk | hk <;> rw [hk] <;> rfl
  noName := by
    rw [Bool.eq_false_iff]
    exact fun hn => Nat.lt_irrefl _ (lt_left_of_isTypeName hn)
  noBracket := by rw [kind_end]; exact nofun
  behind _ := h.last

theorem classReferenceAhead (h : Stopped v w) (h0 : 0 < v.left) :
    w.classReferenceAhead = v.classReferenceAhead := by
  obtain ⟨ht, hle⟩ := h.fronts.typeEnd? (n := 0) (.inl h0)
  unfold Lookahead.classReferenceAhead
  rw [h.mark h0 (by decide), h.mark h0 (by decide), ht]
  cases hv : v.typeEnd? 0 with
  | none => rfl
  | some n =>
    dsimp only
    rw [h.mark (hle n hv) (by decide)]
    by_cases hd : v.kind n = .mark .dot
    · rw [h.word _ (h.next hd rfl)]
    · rw [beq_false_of_ne hd, Bool.false_and, Bool.false_and]

/-- A type in parentheses that close in front of the stop is followed by the same token, unless
the parentheses are the last of the tokens. -/
theorem castAhead (h : Stopped v w) {i : Nat} (hi : 0 < i) (hk : v.kind i = .mark .rParen)
    (hlast : (w.kind v.left).followsCast = true →
      ∀ n ≤ i, v.typeEnd? 1 = some n → v.kind n = .mark .rParen → n + 1 ≠ v.left) :
    w.castAhead = v.castAhead := by
  have hlt : i < v.left := lt_left (by rw [hk]; exact nofun)
  obtain ⟨ht, hle⟩ := typeEnd?_of_closing (fun n hn => h.kind n (Nat.lt_trans hn hlt))
    (.inl hk) ((h.kind i hlt).trans hk) (n := 1) hi
  unfold Lookahead.castAhead
  rw [ht]
  cases hv : v.typeEnd? 1 with
  | none => rfl
  | some n =>
    have hn : n < v.left := Nat.lt_of_le_of_lt (hle n hv) hlt
    dsimp only
    rw [h.kind n hn]
    by_cases hp : v.kind n = .mark .rParen
    · rcases Nat.lt_or_eq_of_le (Nat.succ_le_of_lt hn) with hlt' | heq
      · rw [h.kind (n + 1) hlt']
      · have hstop : (w.kind (n + 1)).followsCast = false := by
          rw [show n + 1 = v.left from heq, Bool.eq_false_iff]
          exact fun hf => hlast hf n (hle n hv) hv hp heq
        rw [hstop, show n + 1 = v.left from heq, kind_end]
        rfl
    · rw [beq_false_of_ne hp, Bool.false_and, Bool.false_and]

theorem doubled (h : Stopped v w) (h0 : 0 < v.left) (hm : m = .lt ∨ m = .gt) :
    w.doubled m = v.doubled m := by
  have hm' : m ≠ .rParen ∧ m ≠ .rBrack := by rcases hm with rfl | rfl <;> decide
  unfold Lookahead.doubled atMark
  rw [h.kind 0 h0, h.mark h0 hm']
  by_cases h0 : v.kind 0 = .mark m
  · by_cases h1 : v.kind 1 = .mark m
    · rw [h.angles 0 m hm h0 h1]
    · rw [beq_false_of_ne h1, Bool.and_false, Bool.false_and, Bool.false_and]
  · rw [beq_false_of_ne h0, Bool.false_and, Bool.false_and, Bool.false_and]

theorem operatorAhead (h : Stopped v w) (level : Nat) :
    w.operatorAhead level = v.operatorAhead level := by
  rcases Nat.eq_zero_or_pos v.left with h0 | h0
  · have hv : v.kind 0 = .eof := kind_of_left_le (Nat.le_of_eq h0)
    have hstop := h.kind_stop
    rw [operatorAhead_of_eof hv, h0] at *
    unfold Lookahead.operatorAhead
    rcases hstop with hk | hk | hk | hk <;>
      split <;> simp [Lookahead.doubled, comparisonAhead, atMark, atKeyword, hk]
  · refine Lookahead.operatorAhead_congr (h.kind 0 h0)
      (fun _ => ⟨h.doubled h0 (.inl rfl), h.doubled h0 (.inr rfl)⟩) fun _ hd => ?_
    simp only [Lookahead.doubled, Bool.and_eq_true] at hd
    rw [h.mark (lt_left_of_mark hd.1.2) (by decide)]
    by_cases h2 : v.kind 2 = .mark .gt
    · rw [h.angles 1 .gt (.inr rfl) (beq_iff_eq.1 hd.1.2) h2]
    · rw [beq_false_of_ne h2, Bool.false_and, Bool.false_and]

end Stopped

end Lookahead

/-! ## Parts -/

section Parts

open Lookahead

variable {v w : Lookahead}

theorem TypePart.expand_stopped (h : Stopped v w) (p : TypePart) (hp : p = .name → 0 < v.left) :
    p.expand w = p.expand v := by
  rcases Nat.eq_zero_or_pos v.left with h0 | h0
  · have hv : v.kind 0 = .eof := kind_of_left_le (Nat.le_of_eq h0)
    have hstop := h.kind_stop
    rw [h0] at hstop
    cases p with
    | name => exact absurd (hp rfl) (by omega)
    | _ => rcases hstop with hk | hk | hk | hk <;> simp [expand, atMark, hk, hv]
  · have hk := h.kind 0 h0
    have hn := h.isTypeName h0
    cases p with
    | dottedNames =>
      have hdot := h.behind (m := .dot) rfl (h.isTypeName (n := 1))
      simp [expand, atMark, hk, hdot]
    | dimensions =>
      have hbrack := h.behind (m := .lBrack) rfl fun h1 =>
        congrArg (· == Kind.mark .rBrack) (h.kind 1 h1)
      simp [expand, atMark, hk, hbrack]
    | _ => simp [expand, atMark, hk, hn]

/-- The part does in front of a stop what it does at the end of the text only if it reads
something. -/
def ExprPart.asks : ExprPart → Bool
  | primary | member | argumentList | arraySize => true
  | _ => false

theorem primarySteps_stopped (h : Stopped v w) (h0 : 0 < v.left) :
    primarySteps w = primarySteps v := by
  have hword : ∀ s : String, (v.kind 0 == .mark .lBrack && w.word 1 == s) =
      (v.kind 0 == .mark .lBrack && v.word 1 == s) :=
    fun s => h.behind rfl fun h1 => congrArg (· == s) (h.word 1 h1)
  simp [primarySteps, atMark, atKeyword, h.kind 0 h0, h.isTypeName h0,
    h.mark (m := .lParen) h0 (by decide), h.mark (m := .dot) h0 (by decide), hword,
    h.classReferenceAhead h0]

theorem ExprPart.expand_stopped (h : Stopped v w) (p : ExprPart) (mark : Nat)
    (hc : p = .unary → v.kind 0 = .mark .lParen → w.castAhead = v.castAhead)
    (hz : p.asks = true → 0 < v.left) : p.expand w mark = p.expand v mark := by
  rcases Nat.eq_zero_or_pos v.left with h0 | h0
  · have hv : v.kind 0 = .eof := kind_of_left_le (Nat.le_of_eq h0)
    have hstop := h.kind_stop
    rw [h0] at hstop
    cases p with
    | operators level m => simp only [expand, h.operatorAhead]
    | primary | member | argumentList | arraySize => exact absurd (hz rfl) (by omega)
    | _ =>
      rcases hstop with hk | hk | hk | hk <;>
        simp [expand, unarySteps, atMark, hk, hv, Kind.isLiteral, Kind.isAssignment]
  · have hk := h.kind 0 h0
    cases p with
    | operators level m => simp only [expand, h.operatorAhead]
    | primary => simp only [expand, primarySteps_stopped h h0]
    | member =>
      simp [expand, h.isWord h0, h.mark (m := .lParen) h0 (by decide)]
    | unary =>
      simp only [expand, unarySteps, hk]
      split
      case h_7 => rw [hc rfl ‹_›]
      all_goals rfl
    | _ => simp [expand, atMark, hk]

theorem QueryPart.expand_stopped (h : Stopped v w) (h0 : 0 < v.left) (p : QueryPart) :
    p.expand w = p.expand v := by
  have hk := h.kind 0 h0
  have hw := h.word 0 h0
  have hi := h.isIdentifier h0
  have hs := h.isWord h0
  have hl := h.isLiteral (n := 1) h0
  have hparen := h.mark (n := 1) (m := .lParen) h0 (by decide)
  have hdot := h.behind (m := .dot) rfl (h.isWord (n := 1))
  have hin : (v.word 0 == "not" && w.word 1 == "in") = (v.word 0 == "not" && v.word 1 == "in") := by
    rcases Nat.lt_or_eq_of_le (show 1 ≤ v.left from h0) with h1 | h1
    · rw [h.word 1 h1]
    · have hstop := h.word_stop
      have hend : v.word 1 = "" := by
        rw [word, nth_of_left_le (Nat.le_of_eq h1.symm), TokenStream.word_eof]
      rw [← h1] at hstop
      rw [beq_false_of_ne hstop, hend]
      rfl
  cases p <;> simp [expand, clause, selectEntrySteps, valueSteps, atMark, atWord, atAnyWord,
    aliasAhead, hk, hw, hi, hs, hl, hparen, hdot, hin]

end Parts

end ApexSyntax
