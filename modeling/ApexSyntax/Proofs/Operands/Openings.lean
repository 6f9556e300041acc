-- Closing parentheses stand behind opening ones. No calm run of a type or an expression
-- reads a closing parenthesis unless it has read an opening parenthesis or bracket before.
-- The scan of a type passes none of these, so no expression starts with a type and a
-- closing parenthesis behind it.
import ApexSyntax.Proofs.Nesting.Steps
import ApexSyntax.Proofs.Operands.Alone

namespace ApexSyntax

/-! ## Opening tokens -/

/-- An opening parenthesis, or a bracket that another token than the closing one follows. -/
def TokenStream.OpensAt (s : TokenStream) (i : Nat) : Prop :=
  (s.nth i).kind = .mark .lParen ∨
    (s.nth i).kind = .mark .lBrack ∧ (s.nth (i + 1)).kind ≠ .mark .rBrack

namespace Step

/-- Of what the step reads a closing parenthesis is not the first. -/
def opens : Step → Bool
  | start _ | wrap _ _ | finish | complain _ | typ _ | expr _ => true
  | expect (.kind k) => k != .mark .rParen
  | expect .identifier | expect .word => true
  | _ => false

end Step

/-- Each of the steps opens, or an opening parenthesis is expected before. -/
def opensAll : List Step → Bool
  | [] => true
  | .expect (.kind (.mark .lParen)) :: _ => true
  | s :: ss => s.opens && opensAll ss

/-- The tokens that the steps take first, as they come, and the steps behind these. -/
def takesFirst : List Step → Option (Nat × List Step)
  | .start _ :: ss | .wrap _ _ :: ss => takesFirst ss
  | .take n :: ss => some (n, ss)
  | _ => none

namespace Lookahead

variable {v : Lookahead} {n : Nat}

/-- Some steps take tokens first, of which none closes, and go on with steps that open; or
an opening token comes first. -/
def TakesOpen (v : Lookahead) (ss : List Step) : Prop :=
  ∃ n rest, takesFirst ss = some (n, rest) ∧
    ((∀ i < n, v.kind i ≠ .mark .rParen) ∧ opensAll rest = true ∨
      0 < n ∧ v.stream.OpensAt v.position)

theorem ne_rParen_of_isPlain (h : (v.kind n).isPlain = true) : v.kind n ≠ .mark .rParen := by
  intro hk
  rw [hk] at h
  cases h

theorem TakesOpen.one {ss rest : List Step} (hss : takesFirst ss = some (1, rest))
    (hk : v.kind 0 ≠ .mark .rParen) (hrest : opensAll rest = true) : v.TakesOpen ss := by
  refine ⟨1, rest, hss, .inl ⟨fun i hi => ?_, hrest⟩⟩
  rwa [Nat.lt_one_iff.1 hi]

theorem TakesOpen.mark {ss rest : List Step} {m : Mark} (hss : takesFirst ss = some (1, rest))
    (hk : v.atMark m = true) (hm : m ≠ .rParen) (hrest : opensAll rest = true) :
    v.TakesOpen ss :=
  .one hss (by rw [beq_iff_eq.1 hk]; simpa using hm) hrest

theorem TakesOpen.plain {ss rest : List Step} (hss : takesFirst ss = some (1, rest))
    (hk : (v.kind 0).isPlain = true) (hrest : opensAll rest = true) : v.TakesOpen ss :=
  .one hss (ne_rParen_of_isPlain hk) hrest

theorem TakesOpen.paren {ss rest : List Step} (hss : takesFirst ss = some (1, rest))
    (hk : v.atMark .lParen = true) : v.TakesOpen ss :=
  ⟨1, rest, hss, .inr ⟨Nat.one_pos, .inl (beq_iff_eq.1 hk)⟩⟩

/-- A bracket that a word follows. -/
theorem TakesOpen.bracket {ss rest : List Step} {w : String} (hs : v.stream.Spelled)
    (hss : takesFirst ss = some (1, rest)) (hk : v.atMark .lBrack = true)
    (hw : v.word 1 = w) (hne : w ≠ "") : v.TakesOpen ss := by
  refine ⟨1, rest, hss, .inr ⟨Nat.one_pos, .inr ⟨beq_iff_eq.1 hk, fun hb => ?_⟩⟩⟩
  have hplain : (v.kind 1).isPlain = true := isPlain_of_word hs (by rwa [hw])
  rw [show v.kind 1 = .mark .rBrack from hb] at hplain
  cases hplain

end Lookahead

/-! ## Parts -/

section Parts

open Lookahead

variable {v : Lookahead}

theorem TypePart.opens (p : TypePart) :
    opensAll (p.expand v) = true ∨ v.TakesOpen (p.expand v) := by
  cases p with
  | name =>
    simp only [expand]
    split
    · exact .inr (.plain rfl (isPlain_of_isTypeName ‹_›) rfl)
    · exact .inl rfl
  | arguments | moreTypes =>
    simp only [expand]
    split
    · exact .inr (.mark rfl ‹_› (by decide) rfl)
    · exact .inl rfl
  | dottedNames =>
    simp only [expand]
    split
    · exact .inr (.mark rfl (Bool.and_eq_true_iff.1 ‹_›).1 (by decide) rfl)
    · exact .inl rfl
  | dimensions =>
    simp only [expand]
    split
    · rename_i hv
      rw [Bool.and_eq_true, atMark, beq_iff_eq, beq_iff_eq] at hv
      refine .inr ⟨2, _, rfl, .inl ⟨fun i hi => ?_, rfl⟩⟩
      obtain rfl | rfl : i = 0 ∨ i = 1 := by omega
      · rw [hv.1]
        decide
      · rw [hv.2]
        decide
    · exact .inl rfl
  | _ => exact .inl rfl

theorem unarySteps_opens (v : Lookahead) :
    opensAll (unarySteps v) = true ∨ v.TakesOpen (unarySteps v) := by
  unfold unarySteps
  split
  case h_7 hk =>
    split
    · exact .inr (.paren rfl (beq_iff_eq.2 hk))
    · exact .inl rfl
  case h_8 => exact .inl rfl
  all_goals exact .inr (.one rfl (by simp [*]) rfl)

theorem primary_opens (hs : v.stream.Spelled) (mark : Nat) :
    opensAll (ExprPart.primary.expand v mark) = true ∨
      v.TakesOpen (ExprPart.primary.expand v mark) := by
  have hplain : (∃ k, v.atKeyword k = true) ∨ v.isTypeName 0 = true →
      (v.kind 0).isPlain = true := by
    rintro (⟨k, h⟩ | h)
    · exact isPlain_of_keyword h
    · exact isPlain_of_isTypeName h
  refine primarySteps_cases_ahead (P := fun ss =>
    opensAll (Step.start .primaryExpression :: ss ++ [Step.finish]) = true ∨
      v.TakesOpen (Step.start .primaryExpression :: ss ++ [Step.finish])) v
    ?call ?word ?literal ?group ?creation ?query ?search ?type ?none
  case call | word => exact fun h => .inr (.plain rfl (hplain h) rfl)
  case literal | type | none => exact .inl rfl
  case group => exact fun h => .inr (.paren rfl h)
  case creation => exact fun h => .inr (.plain rfl (isPlain_of_keyword h) rfl)
  case query | search => exact fun h hw => .inr (.bracket hs rfl h (beq_iff_eq.1 hw) (by decide))

theorem operators_opens (v : Lookahead) (level m mark : Nat) :
    opensAll ((ExprPart.operators level m).expand v mark) = true ∨
      v.TakesOpen ((ExprPart.operators level m).expand v mark) := by
  simp only [ExprPart.expand]
  split
  · next r n hop =>
    refine .inr ⟨n, _, rfl, .inl ⟨fun i hi => ?_, ?_⟩⟩
    · exact ne_rParen_of_isPlain (isPlain_of_operator hop hi)
    · unfold rightOperand
      split <;> rfl
  · exact .inl rfl

theorem suffixes_opens (v : Lookahead) (m mark : Nat) :
    opensAll ((ExprPart.suffixes m).expand v mark) = true ∨
      v.TakesOpen ((ExprPart.suffixes m).expand v mark) := by
  have heither : ∀ {a b : Mark}, (v.atMark a || v.atMark b) = true → a ≠ .rParen → b ≠ .rParen →
      v.kind 0 ≠ .mark .rParen := by
    intro a b h ha hb
    rcases Bool.or_eq_true_iff.1 h with h | h <;> rw [beq_iff_eq.1 h] <;> simpa
  simp only [ExprPart.expand]
  split
  · exact .inr (.one rfl (heither ‹_› (by decide) (by decide)) rfl)
  split
  · exact .inr (.mark rfl ‹_› (by decide) rfl)
  split
  · exact .inr (.one rfl (heither ‹_› (by decide) (by decide)) rfl)
  · exact .inl rfl

theorem ExprPart.opens (p : ExprPart) (mark : Nat) (hs : v.stream.Spelled) :
    opensAll (p.expand v mark) = true ∨ v.TakesOpen (p.expand v mark) := by
  cases p with
  | unary => exact unarySteps_opens v
  | primary => exact primary_opens hs mark
  | operators level m => exact operators_opens v level m mark
  | suffixes m => exact suffixes_opens v m mark
  | assignment m =>
    simp only [expand]
    split
    · exact .inr (.plain rfl (Kind.isPlain_of_isAssignment ‹_›) rfl)
    · exact .inl rfl
  | binary level =>
    simp only [expand]
    split <;> exact .inl rfl
  | member =>
    simp only [expand]
    split
    · exact .inr (.plain rfl (isPlain_of_isWord hs (Bool.and_eq_true_iff.1 ‹_›).1) rfl)
    · exact .inl rfl
  | literal =>
    simp only [expand]
    split
    · exact .inr (.plain rfl (Kind.isPlain_of_isLiteral ‹_›) rfl)
    · exact .inl rfl
  | argumentList =>
    simp only [expand]
    split <;> exact .inl rfl
  | creatorForm =>
    simp only [expand]
    split
    · exact .inl rfl
    split
    · exact .inr (.mark rfl ‹_› (by decide) rfl)
    split
    · exact .inr (.mark rfl ‹_› (by decide) rfl)
    · exact .inl rfl
  | arraySize | arrayValues | initializerValues m | moreExpressions | mapEntries
  | alternatives m =>
    simp only [expand]
    split
    · exact .inr (.mark rfl ‹_› (by decide) rfl)
    · exact .inl rfl
  | initializerRest m =>
    simp only [expand]
    split
    · exact .inr (.mark rfl ‹_› (by decide) rfl)
    · exact .inl rfl
  | _ => exact .inl rfl

end Parts

namespace Parser

/-! ## The law -/

/-- Behind an opening token, in front of each closing parenthesis that was read. -/
def Opened (p q : Parser) : Prop :=
  ∀ j, p.position ≤ j → j < q.position → (p.stream.nth j).kind = .mark .rParen →
    ∃ i, p.position ≤ i ∧ i < j ∧ p.stream.OpensAt i

abbrev OpenedAll : List Step → Parser → Parser → Prop :=
  Chain fun s p q => Leads (fun p s => Tame p s ∧ p.stream.Spelled) [s] p q ∧
    (s.opens = true → Opened p q)

section Law

variable {p p' q r : Parser} {s : Step} {ss more : List Step} {i : Nat}

theorem Opened.of_le (h : q.position ≤ p.position) : Opened p q :=
  fun j hj hj' => absurd hj' (by omega)

theorem Opened.trans (h : Opened p q) (hm : Moves p q) (h' : Opened q r) : Opened p r := by
  intro j hj hj' hk
  by_cases hlt : j < q.position
  · exact h j hj hlt hk
  · rw [← hm.stream] at hk
    obtain ⟨i, hi, hij, hopen⟩ := h' j (by omega) hj' hk
    rw [hm.stream] at hopen
    have hle := hm.position_le
    exact ⟨i, by omega, hij, hopen⟩

/-- Behind an opening token everything may be closed. -/
theorem Opened.behind (h : Opened p q) (hopen : p.stream.OpensAt i) (hi : p.position ≤ i)
    (hq : i < q.position) : Opened p r := by
  intro j hj _ hk
  by_cases hlt : j < q.position
  · exact h j hj hlt hk
  · exact ⟨i, hi, by omega, hopen⟩

theorem opened_expect {x : Expected} (h : Leads Tame [.expect x] p q) (hs : p.stream.Spelled)
    (hx : (Step.expect x).opens = true) : Opened p q := by
  have hne : p.lookahead.kind 0 ≠ .mark .rParen := by
    obtain ⟨p', more, hp, -⟩ := h.inv
    have hacc : x.accepts p.current = true := (expect_calm h.calm rfl hp).1
    cases x with
    | kind k =>
      rw [Lookahead.kind, show p.lookahead.nth 0 = p.current from rfl, beq_iff_eq.1 hacc]
      exact bne_iff_ne.1 hx
    | identifier =>
      have hplain : (p.lookahead.nth 0).kind.isPlain = true := Token.isPlain_of_isIdentifier hacc
      exact Lookahead.ne_rParen_of_isPlain hplain
    | word =>
      have hplain : (p.lookahead.kind 0).isPlain = true := Lookahead.isPlain_of_isWord hs hacc
      exact Lookahead.ne_rParen_of_isPlain hplain
    | spelled w => cases hx
  obtain ⟨p', more, hp, hm⟩ := h.inv
  obtain ⟨-, rfl, rfl⟩ := expect_calm h.calm rfl hp
  cases hm
  intro j hj hj' hk
  have hle := (behind_le p).1
  rw [position_take] at hj'
  have hj0 : j = p.position := by
    have hone : p.behind ≤ p.position + 1 := by
      unfold behind
      split <;> omega
    omega
  subst hj0
  exact absurd hk hne

theorem opened_all (h : OpenedAll ss p q) (hs : opensAll ss = true) : Opened p q := by
  induction ss generalizing p with
  | nil =>
    cases h
    exact .of_le (Nat.le_refl _)
  | cons s ss ih =>
    obtain ⟨p', ⟨hrun, hlaw⟩, h⟩ := h
    unfold opensAll at hs
    split at hs
    · next heq => cases heq
    · next heq =>
      cases heq
      have htame : Leads Tame [.expect (.kind (.mark .lParen))] p p' := hrun.mono fun _ _ h => h.1
      obtain ⟨hacc, -, hpos⟩ := expect_of_tame (by rfl) htame
      have hlt : p.position < p'.position := hpos ▸ Nat.lt_succ_self _
      exact (hlaw rfl).behind (i := p.position) (.inl (beq_iff_eq.1 hacc)) (Nat.le_refl _) hlt
    · next heq =>
      cases heq
      rw [Bool.and_eq_true] at hs
      exact (hlaw hs.1).trans hrun.moves (ih h hs.2)

/-- Tokens that are taken first. -/
theorem opened_takes (h : OpenedAll ss p q) (ht : p.lookahead.TakesOpen ss) : Opened p q := by
  obtain ⟨n, rest, hss, ht⟩ := ht
  induction ss generalizing p with
  | nil => cases hss
  | cons s ss ih =>
    obtain ⟨p', ⟨hrun, _⟩, h⟩ := h
    have hbuild : ∀ f : Builder → Builder, p.perform s = (p.build f, .ok []) →
        takesFirst ss = some (n, rest) → Opened p q := by
      intro f hp hss
      obtain rfl := hrun.single hp
      exact ih (p := p.build f) h hss ht
    cases s with
    | start => exact hbuild _ rfl hss
    | wrap => exact hbuild _ rfl hss
    | take k =>
      cases hss
      have hpos : p'.position = p.position + n := position_of_take (hrun.mono fun _ _ h => h.1)
      rcases ht with ⟨hne, hopens⟩ | ⟨hn, hopen⟩
      · refine Opened.trans (fun j hj hj' hk => ?_) hrun.moves (opened_all h hopens)
        refine absurd ?_ (hne (j - p.position) (by omega))
        rw [Lookahead.kind, Lookahead.nth, lookahead]
        rwa [show p.position + (j - p.position) = j by omega]
      · have hfirst : ∀ j, p.position < j → ∃ i, p.position ≤ i ∧ i < j ∧ p.stream.OpensAt i :=
          fun j hj => ⟨p.position, Nat.le_refl _, hj, hopen⟩
        intro j hj _ hk
        refine hfirst j (Nat.lt_of_le_of_ne hj ?_)
        rintro rfl
        rcases hopen with hk' | ⟨hk', -⟩ <;> exact absurd (hk.symm.trans hk') (by decide)
    | _ => cases hss

/-- Every step keeps to the law when the steps that it leads to do. -/
theorem opened_perform (ha : Tame p s) (hs : p.stream.Spelled)
    (h : p.perform s = (p', .ok more)) (hm : OpenedAll more p' q) (ho : s.opens = true) :
    Opened p q := by
  cases s with
  | start _ | wrap _ _ | finish =>
    cases h
    cases hm
    exact .of_le (Nat.le_refl _)
  | complain c =>
    obtain ⟨hr, _⟩ := reportThen_ok h
    exact absurd rfl (ne_true_of_report ha.calm h hr)
  | expect x =>
    have hrun : Leads Tame [.expect x] p q := by
      obtain ⟨_, _, rfl⟩ := expect_calm ha.calm rfl h
      cases hm
      exact .perform ha h (.done _) (.done _)
    exact opened_expect hrun hs ho
  | typ part =>
    cases h
    rcases part.opens (v := p.lookahead) with hopens | htakes
    · exact opened_all hm hopens
    · exact opened_takes hm htakes
  | expr part =>
    cases h
    rcases part.opens (v := p.lookahead) p.tree.mark hs with hopens | htakes
    · exact opened_all hm hopens
    · exact opened_takes hm htakes
  | _ => cases ho

/-- In front of each closing parenthesis that a calm run reads stands an opening token. -/
theorem opened_of_tame (h : Leads Tame [s] p q) (hs : p.stream.Spelled) (ho : s.opens = true) :
    Opened p q := by
  have hon : Leads (fun p s => Tame p s ∧ p.stream.Spelled) [s] p q :=
    h.onStream.mono fun _ _ ha => ⟨ha.1, by rwa [ha.2]⟩
  obtain ⟨_, ⟨_, hlaw⟩, rfl⟩ :=
    hon.chain_of_allowed fun ha hp _ hm => opened_perform ha.1 ha.2 hp hm
  exact hlaw ho

end Law

end Parser

/-! ## Scans of types -/

namespace Lookahead

variable {v : Lookahead} {n m : Nat}

/-- No opening token stands ahead, up to a place. -/
def Unopened (v : Lookahead) (n : Nat) : Prop := ∀ i < n, ¬v.stream.OpensAt (v.position + i)

theorem Unopened.next (h : v.Unopened n) (hn : ¬v.stream.OpensAt (v.position + n)) :
    v.Unopened (n + 1) := by
  intro i hi
  rcases Nat.lt_succ_iff_lt_or_eq.1 hi with hlt | rfl
  · exact h i hlt
  · exact hn

theorem Unopened.other (h : v.Unopened n) (hp : v.kind n ≠ .mark .lParen)
    (hb : v.kind n ≠ .mark .lBrack) : v.Unopened (n + 1) :=
  h.next fun ho => ho.elim hp fun ho => hb ho.1

theorem Unopened.mark (h : v.Unopened n) {k : Mark} (hk : (v.kind n == .mark k) = true)
    (hm : k ≠ .lParen ∧ k ≠ .lBrack) : v.Unopened (n + 1) := by
  have hk' := beq_iff_eq.1 hk
  exact h.other (by simpa [hk'] using hm.1) (by simpa [hk'] using hm.2)

theorem Unopened.name (h : v.Unopened n) (hn : v.isTypeName n = true) : v.Unopened (n + 1) :=
  h.other ((kind_ne_of_isTypeName hn).2 _) ((kind_ne_of_isTypeName hn).2 _)

/-- Empty brackets open nothing. -/
theorem unopened_dimensionsEnd (h : v.Unopened n) : v.Unopened (v.dimensionsEnd v.left n) := by
  refine ((v.scansEnd.dimensions n).carry (P := v.Unopened) (fun _ _ => rfl) ?_ h).2
  intro i hi
  unfold dimensionsTurn
  split
  · rename_i hb
    rw [Bool.and_eq_true] at hb
    have hopen : ¬v.stream.OpensAt (v.position + i) := by
      rintro (hk | ⟨-, hk⟩)
      · exact absurd (hk.symm.trans (beq_iff_eq.1 hb.1)) (by decide)
      · exact hk (beq_iff_eq.1 hb.2)
    exact (hi.next hopen).mark hb.2 (by decide)
  · exact hi

/-- The scan of a type passes no opening token. -/
theorem unopened_typeEnd (h : v.typeEnd? 0 = some m) : v.Unopened m := by
  have hscan := (v.scansEnd.type 0).carry (P := fun s => v.Unopened s.2.2)
    (Q := fun r => ∀ m, r = some m → v.Unopened m) (fun _ _ => rfl) ?_
    fun i hi => absurd hi (Nat.not_lt_zero i)
  · exact hscan.2 m h
  rintro ⟨named, depth, n⟩ hn
  cases named with
  | false =>
    simp only [typeTurn]
    split
    · rename_i hname
      split
      · exact (hn.name hname).mark ‹_› (by decide)
      · exact hn.name hname
    · rintro _ ⟨⟩
  | true =>
    have hend := unopened_dimensionsEnd hn
    simp only [typeTurn]
    split
    · exact hn.mark (Bool.and_eq_true_iff.1 ‹_›).1 (by decide)
    split
    · rintro _ ⟨⟩
      exact hend
    split
    · exact hend.mark ‹_› (by decide)
    split
    · exact hend.mark ‹_› (by decide)
    · rintro _ ⟨⟩

end Lookahead

namespace Parser

/-- What starts with a type goes on behind it, with another token than a closing parenthesis. -/
theorem kind_typeEnd_ne {p q : Parser} {s : Step} {m : Nat} (h : Leads Tame [s] p q)
    (hs : p.stream.Spelled) (ho : s.opens = true) (hm : p.lookahead.typeEnd? 0 = some m)
    (hq : p.position + m < q.position) : p.lookahead.kind m ≠ .mark .rParen := by
  intro hk
  obtain ⟨i, hi, hlt, hopen⟩ := opened_of_tame h hs ho (p.position + m) (Nat.le_add_right _ _) hq hk
  refine Lookahead.unopened_typeEnd hm (i - p.position) (by omega) ?_
  rwa [show p.lookahead.position + (i - p.position) = i from Nat.add_sub_of_le hi]

end Parser

end ApexSyntax
