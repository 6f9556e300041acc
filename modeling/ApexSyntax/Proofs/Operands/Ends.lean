-- What types and expressions end with. In a calm run a step that has to read something
-- reads a token. So behind a mark that something has to follow another token was read, and
-- no type and no expression ends with such a mark.
import ApexSyntax.Proofs.Lookahead.Declarations
import ApexSyntax.Proofs.Replay.Angles

namespace ApexSyntax

namespace Step

/-- The step takes a token, or does nothing without one. -/
def reads : Step → Bool
  | take n => n != 0
  | s => s.plain && s.essential

/-- In a calm run the step reads something. -/
def urgent : Step → Bool
  | expr .member | expr .arraySize | expr (.initializerRest _) => true
  | s => s.reads

end Step

namespace Parser

/-! ## Steps that read something -/

section Urgent

variable {p q : Parser} {s : Step} {ss : List Step}

/-- Behind a step of a calm run nothing is being recovered from. -/
theorem Leads.not_recovering (h : Leads Tame [s] p q) : q.recovering = false := by
  obtain ⟨p', more, hp, hm⟩ := h.inv
  have hr := (h.calm rfl).2
  rw [hp] at hr
  refine hm.keeps (R := fun p q => p.recovering = false → q.recovering = false) (fun _ => id)
    (fun _ _ _ h h' => h' ∘ h) (fun s p p' more ha hp _ => ?_) hr
  have hr := (ha.calm rfl).2
  rwa [hp] at hr

theorem lt_of_essential (h : Leads Tame [s] p q) (hs : s.plain = true)
    (he : s.essential = true) : p.position < q.position := by
  have hruns : Runs [s] p q := h.mono fun _ _ _ => trivial
  obtain ⟨_, ⟨_, hcareful⟩, rfl⟩ := hruns.chain fun hp _ hm => careful_perform hp hm
  have hquiet : Quiet s p q := (hcareful (.inl (careful_of_plain hs))).2 hs
  refine Nat.lt_of_le_of_ne h.moves.position_le fun hpos => ?_
  have hr := hquiet.essential he hpos.symm
  rw [h.not_recovering] at hr
  cases hr

/-- A token that is taken in a calm run is there. -/
theorem position_of_take {n : Nat} (h : Leads Tame [.take n] p q) :
    q.position = p.position + n := by
  have hq : q = p.takeMany n := h.single rfl
  cases h with
  | perform ha _ _ _ => rw [hq, position_takeMany (ha.left n rfl)]

theorem lt_of_reads (h : Leads Tame [s] p q) (hs : s.reads = true) : p.position < q.position := by
  unfold Step.reads at hs
  split at hs
  · have hpos := position_of_take h
    have hn := bne_iff_ne.1 hs
    omega
  · rw [Bool.and_eq_true] at hs
    exact lt_of_essential h hs.1 hs.2

/-- Steps read something if one of them does. -/
theorem lt_of_any {f : Step → Bool}
    (hf : ∀ {s p q}, Leads Tame [s] p q → f s = true → p.position < q.position)
    (h : Leads Tame ss p q) (hs : ss.any f = true) : p.position < q.position := by
  induction ss generalizing p with
  | nil => cases hs
  | cons s ss ih =>
    obtain ⟨p', h₁, h⟩ := h.uncons
    have hle := h₁.moves.position_le
    have hle' := h.moves.position_le
    rw [List.any_cons, Bool.or_eq_true] at hs
    rcases hs with hs | hs
    · have hlt := hf h₁ hs
      omega
    · have hlt := ih h hs
      omega

theorem lt_of_urgent (h : Leads Tame [s] p q) (hs : s.urgent = true) :
    p.position < q.position := by
  have hpart : ∀ part : ExprPart, s = .expr part →
      (part.expand p.lookahead p.tree.mark).any Step.reads = true → p.position < q.position := by
    rintro part rfl hany
    obtain ⟨p', more, hp, hm⟩ := h.inv
    cases hp
    exact lt_of_any lt_of_reads hm hany
  unfold Step.urgent at hs
  split at hs
  case h_4 => exact lt_of_reads h hs
  all_goals
    refine hpart _ rfl ?_
    simp only [ExprPart.expand]
    split <;> rfl

theorem lt_of_any_urgent (h : Leads Tame ss p q) (hs : ss.any Step.urgent = true) :
    p.position < q.position :=
  lt_of_any lt_of_urgent h hs

end Urgent

end Parser

/-! ## Parts that close -/

/-- What the step reads does not end with a mark that dangles. -/
def Step.closes : Step → Bool
  | start _ | wrap _ _ | finish | complain _ | typ _ | expr _ => true
  | expect (.kind k) => !k.dangles
  | expect .identifier | expect .word => true
  | _ => false

/-- Behind a step that may end with a mark that dangles there is one that reads something. -/
def closesAtEnd : List Step → Bool
  | [] => true
  | s :: ss => (s.closes || ss.any Step.urgent) && closesAtEnd ss

/-- A token is read first, and all steps behind it close. -/
def closesBehindFirst : List Step → Bool
  | .start _ :: ss | .wrap _ _ :: ss => closesBehindFirst ss
  | .take n :: ss => n == 1 && closesAtEnd ss
  | _ => false

section Parts

variable {v : Lookahead}

theorem dangles_of_isTypeName {n : Nat} (h : v.isTypeName n = true) :
    (v.kind n).dangles = false := by
  have hne := (Lookahead.kind_ne_of_isTypeName h).2
  unfold Kind.dangles
  split
  all_goals first | rfl | exact absurd ‹_› (hne _)

theorem dangles_of_isWord {n : Nat} (hs : v.stream.Spelled) (h : v.isWord n = true) :
    (v.kind n).dangles = false := by
  apply Bool.eq_false_iff.2
  intro hd
  have hw : (v.kind n).isWord = false := by
    unfold Kind.dangles at hd
    split at hd
    case h_6 => cases hd
    all_goals exact congrArg Kind.isWord ‹_›
  exact absurd (hs.word_nth hw) (bne_iff_ne.1 h)

theorem dangles_of_isLiteral {k : Kind} (h : k.isLiteral = true) : k.dangles = false := by
  cases k with
  | mark => cases h
  | _ => rfl

theorem dangles_of_atMark {m : Mark} (h : v.atMark m = true) (hm : (Kind.mark m).dangles = false) :
    (v.kind 0).dangles = false := by
  rwa [beq_iff_eq.1 h]

theorem dangles_of_atKeyword {k : Keyword} (h : v.atKeyword k = true) :
    (v.kind 0).dangles = false := by
  rw [beq_iff_eq.1 h]
  rfl

/-- Each part of a type closes, or it starts with a token that does. Pairs of brackets are
taken at once. -/
theorem TypePart.closes (p : TypePart) (hp : p ≠ .dimensions) :
    closesAtEnd (p.expand v) = true ∨
      closesBehindFirst (p.expand v) = true ∧ (v.kind 0).dangles = false := by
  cases p with
  | dimensions => exact absurd rfl hp
  | name =>
    simp only [expand]
    split
    · exact .inr ⟨rfl, dangles_of_isTypeName ‹_›⟩
    · exact .inl rfl
  | _ =>
    simp only [expand]
    repeat' split
    all_goals exact .inl rfl

theorem primarySteps_closes (v : Lookahead) :
    closesAtEnd (primarySteps v ++ [Step.finish]) = true ∨
      closesBehindFirst (primarySteps v ++ [Step.finish]) = true ∧ (v.kind 0).dangles = false := by
  have hname : (∃ k, v.atKeyword k = true) ∨ v.isTypeName 0 = true →
      (v.kind 0).dangles = false := by
    rintro (⟨k, h⟩ | h)
    · exact dangles_of_atKeyword h
    · exact dangles_of_isTypeName h
  refine primarySteps_cases_ahead (P := fun ss => closesAtEnd (ss ++ [Step.finish]) = true ∨
    closesBehindFirst (ss ++ [Step.finish]) = true ∧ (v.kind 0).dangles = false) v
    ?call ?word ?literal ?group ?creation ?query ?search ?type ?none
  case call | word => exact fun h => .inr ⟨rfl, hname h⟩
  case literal | type | none => exact .inl rfl
  case group => exact fun _ => .inl rfl
  case creation => exact fun h => .inr ⟨rfl, dangles_of_atKeyword h⟩
  case query | search => exact fun _ _ => .inl rfl

/-- Each part of an expression closes, or it starts with a token that does. -/
theorem ExprPart.closes (p : ExprPart) (mark : Nat) (hs : v.stream.Spelled) :
    closesAtEnd (p.expand v mark) = true ∨
      closesBehindFirst (p.expand v mark) = true ∧ (v.kind 0).dangles = false := by
  cases p with
  | primary => exact primarySteps_closes v
  | suffixes m =>
    simp only [expand]
    split
    · exact .inl rfl
    · split
      · exact .inl rfl
      · split
        · rename_i hv
          refine .inr ⟨rfl, ?_⟩
          rcases Bool.or_eq_true_iff.1 hv with hv | hv <;> exact dangles_of_atMark hv rfl
        · exact .inl rfl
  | member =>
    simp only [expand]
    split
    · exact .inr ⟨rfl, dangles_of_isWord hs (Bool.and_eq_true_iff.1 ‹_›).1⟩
    · exact .inl rfl
  | literal =>
    simp only [expand]
    split
    · exact .inr ⟨rfl, dangles_of_isLiteral ‹_›⟩
    · exact .inl rfl
  | creatorForm =>
    simp only [expand]
    split
    · exact .inl rfl
    · split
      · exact .inl rfl
      · split
        · exact .inr ⟨rfl, dangles_of_atMark ‹_› rfl⟩
        · exact .inl rfl
  | arraySize =>
    simp only [expand]
    split
    · exact .inr ⟨rfl, dangles_of_atMark ‹_› rfl⟩
    · exact .inl rfl
  | arrayValues =>
    simp only [expand]
    split
    · exact .inr ⟨rfl, dangles_of_atMark ‹_› rfl⟩
    · exact .inl rfl
  | initializerValues m =>
    simp only [expand]
    split
    · exact .inr ⟨rfl, dangles_of_atMark ‹_› rfl⟩
    · exact .inl rfl
  | operators level m =>
    rcases operators_cases v level m mark with h | ⟨r, n, o, rfl | rfl, h⟩
    · exact .inl (by rw [h]; rfl)
    · exact .inl (by rw [h]; rfl)
    · exact .inl (by rw [h]; rfl)
  | _ =>
    simp only [expand, unarySteps]
    repeat' split
    all_goals exact .inl rfl

theorem dangles_of_accepts {e : Expected} (hs : v.stream.Spelled)
    (hc : (Step.expect e).closes = true) (h : e.accepts (v.nth 0) = true) :
    (v.kind 0).dangles = false := by
  cases e with
  | kind k =>
    rw [Lookahead.kind, beq_iff_eq.1 h]
    exact Bool.not_eq_eq_eq_not.1 hc
  | identifier => exact dangles_of_isTypeName (Lookahead.isTypeName_of_isIdentifier h)
  | word => exact dangles_of_isWord hs h
  | spelled w => cases hc

end Parts

namespace Parser

/-! ## The law -/

/-- What was read, if anything, does not end with a mark that dangles. -/
def EndsClosed (p q : Parser) : Prop :=
  p.position < q.position → (q.stream.nth (q.position - 1)).kind.dangles = false

abbrev EndsClosedAll : List Step → Parser → Parser → Prop :=
  Chain fun s p q => Leads (fun p s => Tame p s ∧ p.stream.Spelled) [s] p q ∧
    (s.closes = true → EndsClosed p q)

section Law

variable {p p' q r : Parser} {s : Step} {ss more : List Step}

theorem EndsClosedAll.leads (h : EndsClosedAll ss p q) : Leads Tame ss p q := by
  induction ss generalizing p with
  | nil => rw [h]; exact .done p
  | cons s ss ih =>
    obtain ⟨p', ⟨hrun, _⟩, h⟩ := h
    exact (hrun.mono fun _ _ h => h.1).append (ih h)

theorem EndsClosed.of_eq (h : q.position = p.position) : EndsClosed p q :=
  fun hlt => absurd hlt (by omega)

/-- A token that was taken, and does not dangle. -/
theorem EndsClosed.of_take {n : Nat} (h : Leads Tame [.take n] p q)
    (hk : (p.lookahead.kind (n - 1)).dangles = false) : EndsClosed p q := by
  intro hlt
  have hpos := position_of_take h
  rw [h.moves.stream, hpos, Nat.add_sub_assoc (by omega)]
  exact hk

/-- What is read last ends closed, or nothing is read behind what does. -/
theorem EndsClosed.behind (h : EndsClosed p q) (hm : Moves q r) (hs : EndsClosed q r) :
    EndsClosed p r := by
  intro hlt
  by_cases hmoved : q.position < r.position
  · exact hs hmoved
  · have hle := hm.position_le
    have hpos : r.position = q.position := by omega
    rw [hm.stream, hpos]
    exact h (by omega)

theorem endsClosed_all (h : EndsClosedAll ss p q) (hs : closesAtEnd ss = true) :
    EndsClosed p q := by
  induction ss generalizing p with
  | nil =>
    cases h
    exact .of_eq rfl
  | cons s ss ih =>
    obtain ⟨p', ⟨_, hlaw⟩, h⟩ := h
    rw [closesAtEnd, Bool.and_eq_true, Bool.or_eq_true] at hs
    have hrest := ih h hs.2
    rcases hs.1 with hcloses | hurgent
    · exact (hlaw hcloses).behind (EndsClosedAll.leads h).moves hrest
    · exact fun _ => hrest (lt_of_any_urgent (EndsClosedAll.leads h) hurgent)

/-- A token that may stand at the end, and what closes behind it. -/
theorem endsClosed_behindFirst (h : EndsClosedAll ss p q) (hs : closesBehindFirst ss = true)
    (hk : (p.lookahead.kind 0).dangles = false) : EndsClosed p q := by
  induction ss generalizing p with
  | nil => cases hs
  | cons s ss ih =>
    obtain ⟨p', ⟨hrun, _⟩, h⟩ := h
    have hopen : ∀ f : Builder → Builder, p.perform s = (p.build f, .ok []) →
        closesBehindFirst ss = true → EndsClosed p q := by
      intro f hp hs
      obtain rfl := hrun.single hp
      exact ih (p := p.build f) h hs hk
    cases s with
    | start => exact hopen _ rfl hs
    | wrap => exact hopen _ rfl hs
    | take n =>
      rw [closesBehindFirst, Bool.and_eq_true, beq_iff_eq] at hs
      obtain ⟨rfl, hs⟩ := hs
      have hfirst : EndsClosed p p' := .of_take (hrun.mono fun _ _ h => h.1) hk
      exact hfirst.behind (EndsClosedAll.leads h).moves (endsClosed_all h hs)
    | _ => cases hs

theorem endsClosed_dimensions
    (h : EndsClosedAll (TypePart.dimensions.expand p.lookahead) p q) : EndsClosed p q := by
  simp only [TypePart.expand] at h
  split at h
  · rename_i hv
    obtain ⟨p', ⟨hrun, _⟩, h⟩ := h
    have htake : EndsClosed p p' := by
      refine .of_take (hrun.mono fun _ _ h => h.1) ?_
      rw [beq_iff_eq.1 (Bool.and_eq_true_iff.1 hv).2]
      rfl
    exact htake.behind (EndsClosedAll.leads h).moves (endsClosed_all h rfl)
  · exact endsClosed_all h rfl

/-- Every step keeps to the law when the steps that it leads to do. -/
theorem endsClosed_perform (ha : Tame p s) (hs : p.stream.Spelled)
    (h : p.perform s = (p', .ok more)) (hm : EndsClosedAll more p' q) (hc : s.closes = true) :
    EndsClosed p q := by
  cases s with
  | start _ | wrap _ _ | finish =>
    cases h
    cases hm
    exact .of_eq rfl
  | complain c =>
    obtain ⟨hr, _⟩ := reportThen_ok h
    exact absurd rfl (ne_true_of_report ha.calm h hr)
  | expect e =>
    obtain ⟨hacc, rfl, rfl⟩ := expect_calm ha.calm rfl h
    cases hm
    intro hlt
    have hlt' : p.position < p.stream.visible.size := by
      apply Nat.lt_of_not_le
      intro hle
      exact absurd (behind_of_eof ((isEof_current_iff p).2 hle)) (Nat.ne_of_gt hlt)
    rw [position_take, behind_of_lt hlt']
    exact dangles_of_accepts (v := p.lookahead) hs hc hacc
  | typ part =>
    cases h
    by_cases hd : part = .dimensions
    · subst hd
      exact endsClosed_dimensions hm
    · rcases part.closes hd with hc | ⟨hc, hk⟩
      · exact endsClosed_all hm hc
      · exact endsClosed_behindFirst hm hc hk
  | expr part =>
    cases h
    rcases part.closes (v := p.lookahead) p.tree.mark hs with hc | ⟨hc, hk⟩
    · exact endsClosed_all hm hc
    · exact endsClosed_behindFirst hm hc hk
  | _ => cases hc

/-- No type and no expression that is read without a report ends with a mark that something
has to follow. -/
theorem endsClosed_of_tame (h : Leads Tame [s] p q) (hs : p.stream.Spelled)
    (hc : s.closes = true) : EndsClosed p q := by
  have hon : Leads (fun p s => Tame p s ∧ p.stream.Spelled) [s] p q :=
    h.onStream.mono fun _ _ ha => ⟨ha.1, by rwa [ha.2]⟩
  obtain ⟨_, ⟨_, hlaw⟩, rfl⟩ :=
    hon.chain_of_allowed fun ha hp _ hm => endsClosed_perform ha.1 ha.2 hp hm
  exact hlaw hc

end Law

end Parser

end ApexSyntax
