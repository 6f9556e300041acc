-- Tokens that are taken are there. What a part takes at once are tokens that it has
-- looked at, so none of them is the end of the text.
import ApexSyntax.Proofs.Parser.Grammatical
import ApexSyntax.Proofs.Parser.Scans

namespace ApexSyntax

/-! ## Parts that take several tokens -/

section Parts

variable {v : Lookahead} {n : Nat}

open Lookahead

theorem lt_left_of_literal (h : (v.kind n).isLiteral = true) : n < v.left := by
  apply lt_left
  intro hk
  rw [hk] at h
  cases h

theorem lt_left_of_word {w : String} (hw : w ≠ "") (h : v.word n = w) : n < v.left :=
  lt_left_of_isWord (bne_iff_ne.2 (show v.word n ≠ "" from h ▸ hw))

theorem lt_left_of_isIdentifier (h : v.isIdentifier n = true) : n < v.left := by
  apply lt_left_of_isTypeName
  rw [isTypeName, Token.isTypeName, show (v.nth n).isIdentifier = true from h]
  rfl

theorem size_le_left {level : Nat} {r : Rule} {size : Nat}
    (h : v.operatorAhead level = some (r, size)) (hs : 1 < size) : size ≤ v.left := by
  unfold operatorAhead at h
  split at h
  case h_9 =>
    split at h
    · rename_i hd
      cases h
      simp only [doubled, Bool.and_eq_true] at hd
      exact lt_left_of_mark hd.1.2
    · split at h
      · rename_i hd
        simp only [doubled, Bool.and_eq_true] at hd
        cases h
        split
        · rename_i h2
          exact lt_left_of_mark (Bool.and_eq_true_iff.1 h2).1
        · exact lt_left_of_mark hd.1.2
      · cases h
  all_goals
    repeat' split at h
    all_goals cases h
    all_goals omega

theorem TypePart.take_le (p : TypePart) (h : .take n ∈ p.expand v) (hn : 1 < n) :
    n ≤ v.left := by
  cases p with
  | dimensions =>
    simp only [expand] at h
    split at h
    · rename_i hv
      obtain rfl : n = 2 := by simpa using h
      exact lt_left_of_mark (Bool.and_eq_true_iff.1 hv).2
    · cases h
  | _ =>
    simp only [expand] at h
    repeat' split at h
    all_goals simp at h
    all_goals omega

theorem ExprPart.take_le (p : ExprPart) (mark : Nat) (h : .take n ∈ p.expand v mark)
    (hn : 1 < n) : n ≤ v.left := by
  cases p with
  | operators level m =>
    simp only [expand, rightOperand] at h
    split at h
    · rename_i r size ho
      obtain rfl : n = size := by
        split at h <;> simpa using h
      exact size_le_left ho hn
    · cases h
  | primary =>
    revert h
    refine primarySteps_cases (P := fun ss =>
      Step.take n ∈ Step.start .primaryExpression :: ss ++ [Step.finish] → n ≤ v.left) v
      ?_ ?_ ?_ ?_ ?_ ?_ ?_ ?_ ?_
    all_goals
      intro h
      simp [callSteps] at h
    all_goals omega
  | _ =>
    simp only [expand, unarySteps, callSteps, initializerSteps] at h
    repeat' split at h
    all_goals simp at h
    all_goals omega

theorem QueryPart.take_le (p : QueryPart) (h : .take n ∈ p.expand v) (hn : 1 < n) :
    n ≤ v.left := by
  have hone : .take n ∈ [Step.take 1] → n ≤ v.left := by
    intro h
    obtain rfl : n = 1 := by simpa using h
    omega
  cases p with
  | value =>
    simp only [expand, valueSteps, boundSteps] at h
    repeat' split at h
    all_goals simp at h
    case isFalse.isFalse.isTrue hv =>
      obtain rfl := h
      exact lt_left_of_literal (Bool.and_eq_true_iff.1 hv).2
    all_goals omega
  | dottedWords =>
    simp only [expand] at h
    split at h
    · rename_i hv
      obtain rfl : n = 2 := by simpa using h
      exact lt_left_of_isWord (Bool.and_eq_true_iff.1 hv).2
    · cases h
  | function =>
    simp only [expand] at h
    split at h
    · rename_i hv
      obtain rfl : n = 2 := by simpa using h
      exact lt_left_of_mark (Bool.and_eq_true_iff.1 hv).2
    · simp at h
  | comparisonOperator =>
    simp only [expand] at h
    split at h
    · exact hone h
    · split at h
      · rename_i hv
        obtain rfl : n = 2 := by simpa using h
        exact lt_left_of_word (by decide) (beq_iff_eq.1 (Bool.and_eq_true_iff.1 hv).2)
      · split at h
        · exact hone h
        · simp at h
  | dateCount =>
    simp only [expand] at h
    split at h
    · rename_i hv
      obtain rfl : n = 2 := by simpa using h
      exact lt_left_of_literal (Bool.and_eq_true_iff.1 hv).2
    · cases h
  | _ =>
    simp only [expand, clause, selectEntrySteps, boundSteps] at h
    repeat' split at h
    all_goals simp at h
    all_goals omega

theorem StmtPart.take_le (p : StmtPart) (h : .take n ∈ p.expand v) (hn : 1 < n) :
    n ≤ v.left := by
  cases p with
  | statement =>
    simp only [expand, statementSteps, dmlSteps, expressionStatementSteps,
      keywordExpressionSteps, jumpSteps] at h
    split at h
    case h_13 =>
      split at h
      · rename_i hv
        obtain rfl : n = 2 := by simpa using h
        exact lt_left (by rw [hv.2]; simp)
      · repeat' split at h
        all_goals simp at h
        all_goals omega
    all_goals simp at h
    all_goals omega
  | whenValue =>
    simp only [expand, whenValueSteps] at h
    repeat' split at h
    all_goals simp at h
    · omega
    · rename_i hv
      obtain rfl := h
      exact lt_left_of_isIdentifier (Bool.and_eq_true_iff.1 hv).2
  | accessLevel =>
    simp only [expand] at h
    split at h
    · rename_i hv
      simp only [Bool.and_eq_true, Bool.or_eq_true, beq_iff_eq] at hv
      obtain rfl : n = 2 := by simpa using h
      rcases hv.1.2 with hw | hw <;> exact lt_left_of_word (by decide) hw
    · cases h
  | _ =>
    simp only [expand, untilBrace, loopControlSteps] at h
    repeat' split at h
    all_goals simp at h
    all_goals omega

theorem modifier_le_left {m : Nat} (h : v.modifierLength n = m) (hm : 1 < m) :
    n + m ≤ v.left := by
  unfold modifierLength at h
  split at h
  case h_4 =>
    split at h
    all_goals omega
  all_goals
    split at h
    · rename_i hs
      have hlt := lt_left (n := n + 1) (by rw [beq_iff_eq.1 hs]; exact nofun)
      omega
    · omega

theorem DeclPart.take_le (p : DeclPart) (h : .take n ∈ p.expand v) (hn : 1 < n) :
    n ≤ v.left := by
  cases p with
  | modifiers =>
    simp only [expand, annotationSteps] at h
    repeat' split at h
    all_goals simp at h
    · omega
    · rename_i hm
      have hle := modifier_le_left hm
      omega
  | annotationValues =>
    simp only [expand, annotationValueSteps] at h
    repeat' split at h
    all_goals simp at h
    rename_i hv
    obtain rfl := h
    exact lt_left_of_mark (Bool.and_eq_true_iff.1 hv).2
  | _ =>
    simp only [expand, untilBrace, memberSteps, classMemberSteps, classSteps, interfaceSteps,
      enumSteps, constructorSteps] at h
    repeat' split at h
    all_goals simp at h
    all_goals omega

end Parts

/-! ## Runs that take what is left -/

/-- The step takes no token as it comes. -/
def Step.Steady (s : Step) : Prop := s.plain = true ∨ s = .skip ∨ ∃ i, s = .progress i

/-- Only the first of some steps that reads anything takes tokens as they come, and so
many are left. -/
def Lookahead.Holds (v : Lookahead) : List Step → Prop
  | .start _ :: ss | .wrap _ _ :: ss => v.Holds ss
  | .take n :: ss => n ≤ v.left ∧ ∀ s ∈ ss, s.Steady
  | ss => ∀ s ∈ ss, s.Steady

section Holds

variable {v : Lookahead} {x : Step} {ss rest : List Step}

theorem holds_of_steady (h : ∀ s ∈ ss, s.Steady) : v.Holds ss := by
  induction ss with
  | nil => exact h
  | cons s ss ih =>
    have htail : ∀ s ∈ ss, s.Steady := fun s hs => h s (List.mem_cons_of_mem _ hs)
    cases s with
    | start | wrap => exact ih htail
    | take n =>
      rcases h _ List.mem_cons_self with hp | hp | ⟨i, hp⟩
      · cases hp
      · cases hp
      · cases hp
    | _ => exact h

theorem holds_of_behindFirst (hb : behindFirst ss = some rest) (hv : v.kind 0 ≠ .eof)
    (hr : ∀ s ∈ rest, s.Steady) (ht : ∀ n, .take n ∈ ss → 1 < n → n ≤ v.left) : v.Holds ss := by
  induction ss with
  | nil => cases hb
  | cons s ss ih =>
    cases s with
    | start | wrap => exact ih hb fun n hn => ht n (List.mem_cons_of_mem _ hn)
    | take n =>
      cases n with
      | zero => cases hb
      | succ n =>
        cases hb
        refine ⟨?_, hr⟩
        have h1 : 0 < v.left := Lookahead.lt_left hv
        by_cases hn : n = 0
        · omega
        · exact ht _ List.mem_cons_self (by omega)
    | _ => cases hb

theorem holds_of_form (hx : x.plain = true) (hf : Form v x ss)
    (ht : ∀ n, .take n ∈ ss → 1 < n → n ≤ v.left) : v.Holds ss := by
  cases hf with
  | calm hl =>
    simp only [lighter, Bool.and_eq_true, List.all_eq_true] at hl
    exact holds_of_steady fun s hs => .inl (hl.1.2 s hs).1
  | reads hv hb _ hr =>
    refine holds_of_behindFirst hb hv (fun s hs => ?_) ht
    exact (hr s hs).imp_right fun h => .inr ⟨_, h⟩
  | turn items _ _ _ _ _ hi _ =>
    refine holds_of_steady fun s hs => ?_
    rcases List.mem_append.1 hs with hs | hs
    · have hboth := List.all_eq_true.1 hi s hs
      exact .inl (Bool.and_eq_true_iff.1 hboth).1
    · simp only [List.mem_cons, List.not_mem_nil, or_false] at hs
      rcases hs with rfl | rfl
      · exact .inr (.inr ⟨_, rfl⟩)
      · exact .inl hx
  | refused _ =>
    refine holds_of_steady fun s hs => ?_
    simp only [List.mem_cons, List.not_mem_nil, or_false] at hs
    rcases hs with rfl | rfl | rfl | rfl
    · exact .inl rfl
    · exact .inl rfl
    · exact .inr (.inl rfl)
    · exact .inl rfl

end Holds

namespace Parser

/-- In a calm run the step takes no more tokens than are left. -/
structure Tame (p : Parser) (s : Step) : Prop where
  calm : Calm true p s
  left (n : Nat) : s = .take n → n ≤ p.lookahead.left

section Tame

variable {p p' q : Parser} {s : Step} {ss more : List Step}

/-- What a step is replaced by takes only tokens that are left. -/
theorem holds_more (hs : s.plain = true) (ha : Calm true p s) (h : p.perform s = (p', .ok more)) :
    p'.lookahead.Holds more := by
  have hnone : ∀ {q : Parser}, q.lookahead.Holds [] := holds_of_steady (by simp)
  cases s with
  | start _ | wrap _ _ | finish | takeIf _ => cases h; exact hnone
  | expect e =>
    obtain ⟨_, _, rfl⟩ := expect_calm ha rfl h
    exact hnone
  | expectThen e next =>
    obtain ⟨_, _, rfl⟩ := expect_calm ha rfl h
    have hn : next.plain = true := (Bool.and_eq_true_iff.1 hs).2
    exact holds_of_steady (by simpa using .inl hn)
  | complain c =>
    obtain ⟨_, rfl⟩ := reportThen_ok h
    exact hnone
  | typ part => cases h; exact holds_of_form hs part.form fun _ => part.take_le
  | expr part => cases h; exact holds_of_form hs (part.form _) fun _ => part.take_le _
  | soql part => cases h; exact holds_of_form hs part.form fun _ => part.take_le
  | stmt part => cases h; exact holds_of_form hs part.form fun _ => part.take_le
  | decl part => cases h; exact holds_of_form hs (part.form hs) fun _ => part.take_le
  | take _ | skip | progress _ | endOfText | skipRest => cases hs

theorem tame_of_calm (h : Leads (Calm true) ss p q) (hs : p.lookahead.Holds ss) :
    Leads Tame ss p q := by
  induction h with
  | done p => exact .done p
  | @perform s more rest p p' q r ha hp hm hrest ih1 ih2 =>
    have hsteady : (∀ t ∈ s :: rest, t.Steady) → Leads Tame (s :: rest) p r := by
      intro hall
      have hrest' := ih2 (holds_of_steady fun t ht => hall t (List.mem_cons_of_mem s ht))
      rcases hall s List.mem_cons_self with hpl | rfl | ⟨i, rfl⟩
      · refine .perform ⟨ha, ?_⟩ hp (ih1 (holds_more hpl ha hp)) hrest'
        rintro n rfl
        cases hpl
      · exact absurd trivial (ha rfl).1
      · cases hp
        exact .perform ⟨ha, nofun⟩ rfl (ih1 (holds_of_steady (by simp))) hrest'
    cases s with
    | start | wrap =>
      cases hp
      cases hm
      exact .perform ⟨ha, nofun⟩ rfl (.done _) (ih2 hs)
    | take n =>
      cases hp
      cases hm
      refine .perform ⟨ha, ?_⟩ rfl (.done _) (ih2 (holds_of_steady hs.2))
      rintro m ⟨⟩
      exact hs.1
    | _ => exact hsteady hs

theorem position_takeMany {n : Nat} (h : n ≤ p.lookahead.left) :
    (p.takeMany n).position = p.position + n := by
  induction n generalizing p with
  | zero => rfl
  | succ n ih =>
    have hlt : p.position < p.stream.visible.size := by
      have hl : p.lookahead.left = p.stream.visible.size - p.position := rfl
      omega
    have htake : p.take.position = p.position + 1 := behind_of_lt hlt
    have hleft : n ≤ p.take.lookahead.left := by
      have hl : p.lookahead.left = p.stream.visible.size - p.position := rfl
      have hl' : p.take.lookahead.left = p.stream.visible.size - p.take.position := rfl
      omega
    rw [takeMany, ih hleft, htake]
    omega

end Tame

end Parser

end ApexSyntax
