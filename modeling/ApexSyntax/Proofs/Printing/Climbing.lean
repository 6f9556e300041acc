-- How the parser climbs down from the loosest expressions to an operand, and what
-- waits behind the operand on the way: at each stage the part that takes it into a
-- larger expression, if the next token continues one of that stage.
import ApexSyntax.Proofs.Printing.Expressions

namespace ApexSyntax

/-! ## Scans for types -/

/-- No type ends with arguments or brackets in front of a dot or a closing
parenthesis: no angle stands there, and no brackets are empty. -/
structure Lookahead.Untyped (v : Lookahead) : Prop where
  angle : ∀ n, v.kind n = .mark .gt →
    v.kind (n + 1) ≠ .mark .dot ∧ v.kind (n + 1) ≠ .mark .rParen
  bracket : ∀ n, v.kind n = .mark .lBrack → v.kind (n + 1) ≠ .mark .rBrack

section Scans

variable {v : Lookahead} {ps qs : List Piece} {named : Bool} {fuel depth n m : Nat}

/-- Behind an angle or an opening bracket the text ends, an operand starts, or the same
mark stands once more. -/
theorem kind_behind (hc : ps.IsChain Piece.Precedes) (n : Nat)
    (h : (pieceAt ps n).kind = .mark .lt ∨ (pieceAt ps n).kind = .mark .gt ∨
      (pieceAt ps n).kind = .mark .lBrack) :
    (pieceAt ps (n + 1)).kind = .eof ∨ (pieceAt ps (n + 1)).kind.startsExpression = true ∨
      (pieceAt ps (n + 1)).kind = (pieceAt ps n).kind := by
  induction ps generalizing n with
  | nil => exact .inl rfl
  | cons a ps ih =>
    cases n with
    | succ n => exact ih hc.tail n h
    | zero =>
      cases ps with
      | nil => exact .inl rfl
      | cons b ps => exact .inr ((hc.rel h).imp_right And.right)

theorem untyped_of_before (hv : v.Before ps) (hc : ps.IsChain Piece.Precedes) : v.Untyped := by
  constructor
  · intro n hn
    rw [hv.kind_eq] at hn
    rw [hv.kind_eq]
    rcases kind_behind hc n (.inr (.inl hn)) with h | h | h
    · rw [h]
      exact ⟨nofun, nofun⟩
    · constructor <;> intro he <;> rw [he] at h <;> cases h
    · rw [h, hn]
      exact ⟨by decide, by decide⟩
  · intro n hn
    rw [hv.kind_eq] at hn
    rw [hv.kind_eq]
    rcases kind_behind hc n (.inr (.inr hn)) with h | h | h
    · rw [h]
      exact nofun
    · intro he
      rw [he] at h
      cases h
    · rw [h, hn]
      decide

namespace Lookahead.Untyped

theorem dimensionsEnd_eq (hv : v.Untyped) (fuel n : Nat) : v.dimensionsEnd fuel n = n := by
  cases fuel with
  | zero => rfl
  | succ fuel =>
    rw [dimensionsEnd, if_neg]
    rw [Bool.and_eq_true, beq_iff_eq, beq_iff_eq]
    exact fun h => hv.bracket n h.1 h.2

/-- With arguments of a type still open, or just closed, a type does not end in front
of a dot or a closing parenthesis. -/
theorem typeEndFrom_arguments (hv : v.Untyped) (h : v.typeEndFrom fuel named depth n = some m)
    (ho : 0 < depth ∨ named = true ∧ ∃ k, n = k + 1 ∧ v.kind k = .mark .gt) :
    v.kind m ≠ .mark .dot ∧ v.kind m ≠ .mark .rParen := by
  induction fuel generalizing named depth n with
  | zero => cases h
  | succ fuel ih =>
    cases named with
    | false =>
      have hd : 0 < depth := ho.resolve_right fun h' => absurd h'.1 Bool.false_ne_true
      rw [typeEndFrom] at h
      split at h
      · split at h
        · exact ih h (.inl (Nat.succ_pos _))
        · exact ih h (.inl hd)
      · cases h
    | true =>
      rw [typeEndFrom, hv.dimensionsEnd_eq] at h
      split at h
      · rename_i hdot
        rw [Bool.and_eq_true, beq_iff_eq] at hdot
        rcases ho with ho | ⟨_, k, rfl, hk⟩
        · exact ih h (.inl ho)
        · exact absurd hdot.1 (hv.angle k hk).1
      · cases depth with
        | zero =>
          rcases ho with ho | ⟨_, k, rfl, hk⟩
          · exact absurd ho (Nat.lt_irrefl 0)
          · cases h
            exact hv.angle k hk
        | succ outer =>
          simp only at h
          split at h
          · exact ih h (.inl (Nat.succ_pos _))
          · split at h
            · rename_i hgt
              exact ih h (.inr ⟨rfl, n, rfl, beq_iff_eq.1 hgt⟩)
            · cases h

theorem isTypeName_of_kind {t : Token} (h : v.kind n = t.kind) :
    v.isTypeName n = t.isTypeName := by
  rw [kind] at h
  rw [isTypeName, Token.isTypeName, Token.isTypeName, Token.isIdentifier, Token.isIdentifier, h]

/-- A type in front of a closing parenthesis is a dotted name. -/
theorem closesPath_of_typeEndFrom (hv : v.Untyped)
    (hq : ∀ i, v.kind (n + i) = (pieceAt qs i).kind)
    (h : v.typeEndFrom fuel named 0 n = some m) (hm : v.kind m = .mark .rParen) :
    closesPath named qs = true := by
  induction fuel generalizing named n qs with
  | zero => cases h
  | succ fuel ih =>
    have h0 : v.kind n = (pieceAt qs 0).kind := hq 0
    cases qs with
    | nil =>
      cases named with
      | false =>
        rw [typeEndFrom, isTypeName_of_kind h0] at h
        cases h
      | true =>
        rw [typeEndFrom, hv.dimensionsEnd_eq, h0] at h
        cases h
        rw [h0] at hm
        cases hm
    | cons a qs =>
      have hnext : ∀ i, v.kind (n + 1 + i) = (pieceAt qs i).kind := by
        intro i
        rw [Nat.add_assoc, Nat.add_comm 1]
        exact hq (i + 1)
      rw [pieceAt_zero] at h0
      cases named with
      | false =>
        rw [typeEndFrom, isTypeName_of_kind h0] at h
        split at h
        · rename_i hname
          split at h
          · exact absurd hm (hv.typeEndFrom_arguments h (.inl (Nat.succ_pos _))).2
          · rw [closesPath, hname, Bool.true_and]
            exact ih hnext h
        · cases h
      | true =>
        have hak : v.kind n = a.kind := h0
        rw [typeEndFrom, hv.dimensionsEnd_eq] at h
        split at h
        · rename_i hdot
          rw [Bool.and_eq_true, hak] at hdot
          rw [closesPath, hdot.1, Bool.true_and, ih hnext h, Bool.or_true]
        · cases h
          rw [hak] at hm
          rw [closesPath, hm]
          rfl

theorem classReferenceAhead_eq (hv : v.Untyped) : v.classReferenceAhead = false := by
  rw [Bool.eq_false_iff]
  intro h
  rw [classReferenceAhead, Bool.and_eq_true, Bool.or_eq_true, beq_iff_eq, beq_iff_eq] at h
  obtain ⟨hk, h⟩ := h
  split at h
  · rename_i n hn
    rw [Bool.and_eq_true, beq_iff_eq] at h
    rw [typeEnd?, typeEndFrom] at hn
    split at hn
    · split at hn
      · exact (hv.typeEndFrom_arguments hn (.inl Nat.one_pos)).1 h.1
      · rename_i hlt
        rw [beq_iff_eq] at hlt
        have hb := hk.resolve_left hlt
        rw [typeEndFrom, hv.dimensionsEnd_eq, hb] at hn
        cases hn
        rw [hb] at h
        cases h.1
    · cases hn
  · cases h

end Lookahead.Untyped

/-- A parenthesis with more than a dotted name in it is no cast. -/
theorem castAhead_eq (hv : v.Before (.mark .lParen :: ps)) (hu : v.Untyped)
    (hp : closesPath false ps = false) : v.castAhead = false := by
  rw [Bool.eq_false_iff]
  intro h
  rw [Lookahead.castAhead] at h
  split at h
  · rename_i n hn
    rw [Bool.and_eq_true, beq_iff_eq] at h
    have hq : ∀ i, v.kind (1 + i) = (pieceAt ps i).kind := by
      intro i
      rw [Nat.add_comm, hv.kind_eq, pieceAt_succ]
    have hc := hu.closesPath_of_typeEndFrom hq hn h.1
    rw [hp] at hc
    cases hc
  · cases h

end Scans

/-! ## Continuations -/

/-- The stage of the expressions that a mark continues. Angles are comparisons here. -/
def Mark.stage? : Mark → Option Nat
  | .dot | .questionDot | .lBrack | .inc | .dec => some 14
  | .mul | .div | .mod => some 12
  | .add | .sub => some 11
  | .lt | .gt | .le | .ge => some 9
  | .eq | .ne | .lessGreater | .tripleEq | .tripleNe => some 8
  | .bitAnd => some 7
  | .caret => some 6
  | .bitOr => some 5
  | .andAnd => some 4
  | .orOr => some 3
  | .coalesce => some 2
  | .question => some 1
  | m => if (Kind.mark m).isAssignment then some 0 else none

namespace Lookahead

/-- The stage of the expressions that the next token continues. -/
def continuation (v : Lookahead) : Option Nat :=
  match v.kind 0 with
  | .mark m => if (m = .lt ∨ m = .gt) ∧ v.doubled m = true then some 10 else m.stage?
  | .keyword .instanceofKw => some 9
  | _ => none

variable {v : Lookahead} {m : Mark}

theorem continuation_of_mark (h : v.kind 0 = .mark m) (hl : m ≠ .lt) (hg : m ≠ .gt) :
    v.continuation = m.stage? := by
  simp [continuation, h, hl, hg]

theorem continuation_of_doubled (h : v.doubled m = true) (hm : m = .lt ∨ m = .gt) :
    v.continuation = some 10 := by
  have hk : v.kind 0 = .mark m := by
    rw [doubled, Bool.and_eq_true, Bool.and_eq_true] at h
    exact beq_iff_eq.1 h.1.1
  simp [continuation, hk, h, hm]

theorem continuation_of_not_doubled (hk : v.kind 0 = .mark m) (h : v.doubled m = false) :
    v.continuation = m.stage? := by
  simp [continuation, hk, h]

theorem continuation_of_isAssignment (h : (v.kind 0).isAssignment = true) :
    v.continuation = some 0 := by
  unfold Kind.isAssignment at h
  split at h
  case h_12 => cases h
  all_goals
    rename_i hk
    rw [continuation_of_mark hk (by decide) (by decide)]
    rfl

/-- An operator of a level continues expressions of its stage. -/
theorem continuation_of_operatorAhead {level n : Nat} {r : Rule}
    (h : v.operatorAhead level = some (r, n)) : v.continuation = some (level + 2) := by
  have hmark : ∀ {m : Mark} {k : Nat}, v.atMark m = true → m ≠ .lt → m ≠ .gt →
      m.stage? = some k → v.continuation = some k :=
    fun hm hl hg hk => (continuation_of_mark (beq_iff_eq.1 hm) hl hg).trans hk
  unfold operatorAhead at h
  split at h
  case h_7 =>
    split at h
    · rename_i ha
      simp only [Bool.or_eq_true] at ha
      rcases ha with (((ha | ha) | ha) | ha) | ha
      all_goals exact hmark ha (by decide) (by decide) rfl
    · cases h
  case h_8 =>
    split at h
    · rename_i ha
      have hk : v.kind 0 = .keyword .instanceofKw := beq_iff_eq.1 ha
      simp [continuation, hk]
    · split at h
      · rename_i ha
        simp only [comparisonAhead, Bool.or_eq_true, Bool.and_eq_true, Bool.not_eq_true'] at ha
        rcases ha with ((ha | ha) | ha) | ha
        · exact hmark ha (by decide) (by decide) rfl
        · exact hmark ha (by decide) (by decide) rfl
        · exact continuation_of_not_doubled (beq_iff_eq.1 ha.1) ha.2
        · exact continuation_of_not_doubled (beq_iff_eq.1 ha.1) ha.2
      · cases h
  case h_9 =>
    split at h
    · exact continuation_of_doubled ‹_› (.inl rfl)
    · split at h
      · exact continuation_of_doubled ‹_› (.inr rfl)
      · cases h
  case h_10 =>
    split at h
    · rename_i ha
      rw [Bool.or_eq_true] at ha
      rcases ha with ha | ha
      all_goals exact hmark ha (by decide) (by decide) rfl
    · cases h
  case h_11 =>
    split at h
    · rename_i ha
      simp only [Bool.or_eq_true] at ha
      rcases ha with (ha | ha) | ha
      all_goals exact hmark ha (by decide) (by decide) rfl
    · cases h
  case h_12 => cases h
  all_goals
    split at h
    · rename_i ha
      exact hmark ha (by decide) (by decide) rfl
    · cases h

end Lookahead

/-! ## Operators ahead -/

section Operators

variable {v : Lookahead} {ps qs : List Piece}

theorem Opens.kind_ne (ho : Opens qs) {m : Mark} (hm : (Kind.mark m).startsExpression = false) :
    (pieceAt qs 0).kind ≠ .mark m := by
  obtain ⟨a, qs, rfl, ha⟩ := ho
  rintro h
  have hk : a.kind = .mark m := h
  rw [hk, hm] at ha
  cases ha

@[simp] theorem pieceAt_mark_kind (m : Mark) : (Piece.mark m).token.kind = .mark m := rfl

@[simp] theorem pieceAt_touching_kind (m : Mark) : (Piece.touching m).token.kind = .mark m := rfl

/-- In front of an operator and its right operand the operator is ahead. -/
theorem operatorAhead_of_before (op : BinaryOp) (hv : v.Before (op.pieces ++ qs))
    (ho : Opens qs) : v.operatorAhead op.level = some (op.rule, op.pieces.length) := by
  have hlt : (pieceAt qs 0).kind ≠ .mark .lt := ho.kind_ne rfl
  have hgt : (pieceAt qs 0).kind ≠ .mark .gt := ho.kind_ne rfl
  cases op with
  | lt | gt | le | ge =>
    simp [BinaryOp.level, BinaryOp.rule, BinaryOp.pieces, Lookahead.operatorAhead,
      Lookahead.comparisonAhead, Lookahead.doubled, Lookahead.atMark, Lookahead.atKeyword,
      hv.kind_eq, hlt, hgt]
  | shiftLeft | shiftRight =>
    have ht : v.touches 0 = true := hv.1.2.2.2 rfl
    simp [BinaryOp.level, BinaryOp.rule, BinaryOp.pieces, Lookahead.operatorAhead,
      Lookahead.doubled, Lookahead.atMark, hv.kind_eq, ht, hgt]
  | shiftRightUnsigned =>
    have ht : v.touches 0 = true := hv.1.2.2.2 rfl
    have ht' : v.touches 1 = true := by
      have hn : v.next.touches 0 = true := hv.2.1.2.2.2 rfl
      rwa [Lookahead.touches, Lookahead.nth_next, Lookahead.nth_next] at hn
    simp [BinaryOp.level, BinaryOp.rule, BinaryOp.pieces, Lookahead.operatorAhead,
      Lookahead.doubled, Lookahead.atMark, hv.kind_eq, ht, ht']
  | _ =>
    simp [BinaryOp.level, BinaryOp.rule, BinaryOp.pieces, Lookahead.operatorAhead,
      Lookahead.atMark, hv.kind_eq]

/-- The right operand of an operator is an expression of the next level. -/
theorem BinaryOp.rightOperand_eq (op : BinaryOp) :
    rightOperand op.rule op.level = .expr (.binary (op.level + 1)) := by
  cases op <;> rfl

end Operators

/-! ## Stages -/

/-- The step that reads an expression of a stage or a later one: assignments,
conditionals, the levels of binary operators, prefixed operands, operands. -/
def stage : Nat → Step
  | 0 => .expr .expression
  | 1 => .expr .conditional
  | k + 2 =>
    if k < binaryLevels then .expr (.binary k)
    else if k = binaryLevels then .expr .unary
    else .expr .operand

/-- What waits behind an operand at a stage. -/
def waiting (mark : Nat) : Nat → List Step
  | 0 => [.expr (.assignment mark)]
  | 1 => [.expr (.alternatives mark)]
  | k + 2 =>
    if k < binaryLevels then [.expr (.operators k mark)]
    else if k = binaryLevels then []
    else [.expr (.suffixes mark)]

/-- What waits behind an operand at all stages from one to another, the last first. -/
def pending (mark k l : Nat) : List Step :=
  (List.range' k (l - k)).reverse.flatMap (waiting mark)

section Stages

variable {mark j k l : Nat}

@[simp] theorem pending_self (mark k : Nat) : pending mark k k = [] := by
  simp [pending]

theorem pending_split (hkj : k ≤ j) (hjl : j ≤ l) :
    pending mark k l = pending mark j l ++ pending mark k j := by
  have hrange : List.range' k (l - k) = List.range' k (j - k) ++ List.range' j (l - j) := by
    have h := @List.range'_append k (j - k) (l - j) 1
    rw [Nat.one_mul, Nat.add_sub_cancel' hkj] at h
    rw [h]
    congr 1
    omega
  rw [pending, hrange, List.reverse_append, List.flatMap_append]
  rfl

theorem pending_succ (mark k : Nat) : pending mark k (k + 1) = waiting mark k := by
  simp [pending]

theorem stage_binary (h : k < binaryLevels) : stage (k + 2) = .expr (.binary k) := by
  rw [stage, if_pos h]

theorem waiting_binary (h : k < binaryLevels) :
    waiting mark (k + 2) = [.expr (.operators k mark)] := by
  rw [waiting, if_pos h]

namespace Parser

variable {p q : Parser}

/-- Behind the last level of binary operators stands a prefixed operand. -/
theorem runs_binary (hk : k ≤ binaryLevels) (h : Runs [stage (k + 2)] p q) :
    Runs [.expr (.binary k)] p q := by
  by_cases hlt : k < binaryLevels
  · rwa [stage_binary hlt] at h
  · obtain rfl : k = binaryLevels := Nat.le_antisymm hk (Nat.not_lt.1 hlt)
    exact runs_part rfl h

/-- A stage reads an expression of the next one, and takes it into a larger one. -/
theorem runs_stage (hk : k < 13) (h : Runs (stage (k + 1) :: waiting p.tree.mark k) p q) :
    Runs [stage k] p q := by
  match k, hk with
  | 0, _ => exact runs_part rfl h
  | 1, _ => exact runs_part rfl h
  | k + 2, hk =>
    have hlt : k < binaryLevels := Nat.lt_of_add_lt_add_right hk
    have hsteps : p.perform (.expr (.binary k)) =
        (p, .ok [.expr (.binary (k + 1)), .expr (.operators k p.tree.mark)]) := by
      rw [perform, ExprPart.expand, if_pos hlt]
    rw [waiting_binary hlt] at h
    obtain ⟨r, h1, h2⟩ := h.uncons
    rw [stage_binary hlt]
    exact runs_part hsteps ((runs_binary hlt h1).append h2)

/-- From a stage down to a later one, with what waits behind it. -/
theorem runs_down (hkj : k ≤ j) (hj : j ≤ 13)
    (h : Runs (stage j :: pending p.tree.mark k j) p q) : Runs [stage k] p q := by
  induction hkj using Nat.decreasingInduction generalizing q with
  | self => rwa [pending_self] at h
  | of_succ k hk ih =>
    rw [pending_split (Nat.le_succ k) hk, pending_succ] at h
    rw [← List.cons_append] at h
    obtain ⟨r, h1, h2⟩ := h.split
    exact runs_stage (Nat.lt_of_lt_of_le hk hj) ((ih h1).append h2)

/-! ## Nothing to do -/

/-- What waits at a stage does nothing when the next token continues no expression of
that stage. -/
theorem runs_waiting (hk : k < 15) (h : p.lookahead.continuation ≠ some k) :
    Runs (waiting mark k) p p := by
  have hidle : ∀ {part : ExprPart}, part.expand p.lookahead p.tree.mark = [] →
      Runs [.expr part] p p :=
    fun hp => runs_one (by rw [perform, hp])
  rcases k with - | - | k
  · refine hidle (if_neg fun hc => h ?_)
    exact Lookahead.continuation_of_isAssignment hc
  · refine hidle (if_neg fun hc => h ?_)
    exact Lookahead.continuation_of_mark (beq_iff_eq.1 hc) (by decide) (by decide)
  · by_cases hlt : k < binaryLevels
    · rw [waiting_binary hlt]
      refine hidle ?_
      have hop : p.lookahead.operatorAhead k = none := by
        rw [Option.eq_none_iff_forall_ne_some]
        rintro ⟨r, n⟩ hop
        exact h (Lookahead.continuation_of_operatorAhead hop)
      rw [ExprPart.expand, hop]
    · by_cases he : k = binaryLevels
      · rw [waiting, if_neg hlt, if_pos he]
        exact .done p
      · obtain rfl : k = 12 := by
          have h11 : binaryLevels = 11 := rfl
          omega
        have hmark : ∀ {m : Mark}, m.stage? = some 14 → p.lookahead.atMark m = false := by
          intro m hm
          rw [Bool.eq_false_iff]
          intro hc
          refine h ((Lookahead.continuation_of_mark (beq_iff_eq.1 hc) ?_ ?_).trans hm)
          · rintro rfl
            cases hm
          · rintro rfl
            cases hm
        refine hidle ?_
        simp [ExprPart.expand, hmark (m := .dot) rfl, hmark (m := .questionDot) rfl,
          hmark (m := .lBrack) rfl, hmark (m := .inc) rfl, hmark (m := .dec) rfl]

theorem runs_pending (hl : l ≤ 15) (h : ∀ j, p.lookahead.continuation = some j → j < k) :
    Runs (pending mark k l) p p := by
  have hall : ∀ js : List Nat, (∀ j ∈ js, k ≤ j ∧ j < 15) →
      Runs (js.flatMap (waiting mark)) p p := by
    intro js hjs
    induction js with
    | nil => exact .done p
    | cons j js ih =>
      rw [List.forall_mem_cons] at hjs
      refine (runs_waiting hjs.1.2 fun hc => ?_).append (ih hjs.2)
      exact absurd (h j hc) (Nat.not_lt.2 hjs.1.1)
  refine hall _ fun j hj => ?_
  rw [List.mem_reverse, List.mem_range'_1] at hj
  omega

end Parser

end Stages

end ApexSyntax
