-- An operand is read the same way at the end of the text and in front of a token that goes on
-- no expression. Queries would go on with a word, but a bracket closes them before the last
-- token. A type in parentheses would be a cast in front of an operand, so where the token
-- behind may be one, no such parentheses may stand last.
import ApexSyntax.Proofs.Operands.Ends
import ApexSyntax.Proofs.Operands.Stops

namespace ApexSyntax

/-! ## Steps that depend on what follows -/

/-- A cast that stands last in the part is closed by a bracket. -/
def ExprPart.encloses : ExprPart → Bool
  | operand | suffixes _ | member | primary | literal | arguments | creator | creatorForm
  | arraySize | arrayValues | initializerValues _ | initializerRest _ => true
  | _ => false

namespace Step

/-- The step reads a part of a type, an expression or a query, or something else of which
these consist. -/
def embedded : Step → Bool
  | start _ | wrap _ _ | finish | take _ | complain _ | typ _ | expr _ | soql _ => true
  | expect e => e.isReal
  | _ => false

/-- What follows may change how the step ends: any word for a query, and an operand for an
expression that ends with a type in parentheses. -/
def reaches (operand : Bool) : Step → Bool
  | soql _ => true
  | expr p => operand && !p.encloses
  | _ => false

end Step

/-- Behind a step that depends on what follows there is one that reads something. -/
def heldBack (operand : Bool) : List Step → Bool
  | [] => true
  | s :: ss => (!s.reaches operand || ss.any Step.urgent) && heldBack operand ss

section Parts

variable {v : Lookahead} {operand : Bool}

theorem TypePart.all_embedded (p : TypePart) : (p.expand v).all Step.embedded = true := by
  cases p <;> simp only [expand] <;> repeat' split
  all_goals rfl

theorem ExprPart.all_embedded (p : ExprPart) (mark : Nat) :
    (p.expand v mark).all Step.embedded = true := by
  cases p with
  | primary =>
    exact primarySteps_cases (P := fun ss =>
      (Step.start .primaryExpression :: ss ++ [Step.finish]).all Step.embedded = true) v
      rfl rfl rfl rfl rfl rfl rfl rfl rfl
  | _ =>
    simp only [expand, unarySteps, rightOperand]
    repeat' split
    all_goals rfl

theorem QueryPart.all_embedded (p : QueryPart) : (p.expand v).all Step.embedded = true := by
  cases p <;> simp only [expand, clause, selectEntrySteps, valueSteps] <;> repeat' split
  all_goals rfl

theorem TypePart.heldBack (p : TypePart) : heldBack operand (p.expand v) = true := by
  cases p <;> simp only [expand] <;> repeat' split
  all_goals rfl

/-- In an expression every query is closed, and so is every operand in one that encloses
them. -/
theorem ExprPart.heldBack (p : ExprPart) (mark : Nat)
    (h : operand = true → p.encloses = true) : heldBack operand (p.expand v mark) = true := by
  cases p with
  | primary =>
    cases operand <;> exact primarySteps_cases (P := fun ss =>
      heldBack _ (Step.start .primaryExpression :: ss ++ [Step.finish]) = true) v
      rfl rfl rfl rfl rfl rfl rfl rfl rfl
  | _ =>
    cases operand with
    | false =>
      clear h
      simp only [expand, unarySteps, rightOperand]
      repeat' split
      all_goals rfl
    | true =>
      cases h rfl
      all_goals
        simp only [expand]
        repeat' split
      all_goals rfl

end Parts

/-! ## Parentheses that stand last -/

namespace Lookahead

def behind (v : Lookahead) (n : Nat) : Lookahead := ⟨v.stream, v.position + n⟩

/-- The operand ahead ends with a type in parentheses, at the end of the text: it is one, or
stands behind a prefix or a cast. -/
inductive EndsInGroup : Lookahead → Prop
  | group {v : Lookahead} {n : Nat} (opens : v.kind 0 = .mark .lParen)
      (type : v.typeEnd? 1 = some n) (closes : v.kind n = .mark .rParen)
      (last : v.kind (n + 1) = .eof) : EndsInGroup v
  | prefixed {v : Lookahead} (m : Mark) (mark : v.kind 0 = .mark m)
      (prefixes : m ∈ [.add, .sub, .inc, .dec, .bang, .tilde])
      (operand : EndsInGroup (v.behind 1)) : EndsInGroup v
  | cast {v : Lookahead} {n : Nat} (opens : v.kind 0 = .mark .lParen)
      (type : v.typeEnd? 1 = some n) (ahead : v.castAhead = true)
      (operand : EndsInGroup (v.behind (n + 1))) : EndsInGroup v

end Lookahead

namespace Parser

section Positions

variable {p q r : Parser} {x : Step} {ss : List Step} {rule : Rule} {n i : Nat}

/-- Behind an opening parenthesis and one more step stands the closing one. -/
theorem exists_rParen
    (h : Leads Tame (.start rule :: .take 1 :: x :: .expect (.mark .rParen) :: ss) p q) :
    ∃ i, 0 < i ∧ p.lookahead.kind i = .mark .rParen ∧ p.position + i < q.position := by
  obtain ⟨p₀, h₀, h⟩ := h.uncons
  obtain rfl : p₀ = p.build (·.start rule) := h₀.single rfl
  obtain ⟨p₁, h₁, h⟩ := h.uncons
  obtain ⟨p₂, h₂, h⟩ := h.uncons
  obtain ⟨p₃, h₃, h⟩ := h.uncons
  have htake : p₁.position = p.position + 1 := position_of_take (p := p.build _) h₁
  have hle := h₂.moves.position_le
  obtain ⟨hacc, -, hexpect⟩ := expect_of_tame (by rfl) h₃
  have hlast := h.moves.position_le
  refine ⟨p₂.position - p.position, by omega, ?_, by omega⟩
  have hstream : p₂.stream = p.stream := h₂.moves.stream.trans h₁.moves.stream
  have hkind : (p₂.stream.nth p₂.position).kind = .mark .rParen := beq_iff_eq.1 hacc
  rw [Lookahead.kind, Lookahead.nth, lookahead, ← hstream]
  rwa [show p.position + (p₂.position - p.position) = p₂.position by omega]

theorem primarySteps_of_lParen {v : Lookahead} (hk : v.kind 0 = .mark .lParen) :
    primarySteps v = [.take 1, .expr .expression, .expect (.mark .rParen)] := by
  simp [primarySteps, Lookahead.atKeyword, Lookahead.atMark, hk, Kind.isLiteral]

/-- An operand that starts with a parenthesis has read the closing one. -/
theorem exists_rParen_of_unary (h : Leads Tame (unarySteps p.lookahead) p q)
    (hk : p.lookahead.kind 0 = .mark .lParen) :
    ∃ i, 0 < i ∧ p.lookahead.kind i = .mark .rParen ∧ p.position + i < q.position := by
  simp only [unarySteps, hk] at h
  split at h
  · exact exists_rParen h
  · obtain ⟨p₁, more, hp, h⟩ := h.inv
    cases hp
    obtain ⟨q₁, h₁, h₂⟩ := h.uncons
    obtain ⟨p₂, more, hp, h₁⟩ := h₁.inv
    cases hp
    rw [ExprPart.expand, primarySteps_of_lParen hk] at h₁
    obtain ⟨i, h0, hi, hlt⟩ := exists_rParen h₁
    have hle := h₂.moves.position_le
    exact ⟨i, h0, hi, by omega⟩

/-- The type that a scan has found is read up to its end. -/
theorem position_of_type (h : Leads Tame [.typ .type] q r) (hq : Stands p i q)
    (ht : p.lookahead.typeEnd? i = some n) : r.position = p.position + n := by
  have hends := p.lookahead.scansEnd.type i
  rw [ht] at hends
  obtain ⟨q', hcomes, hstands⟩ := follows_of_ends hends (hq.build (·.start .typeRef))
  have hdone := h.behind (comesTo_type.trans hcomes)
  cases hdone
  exact hstands.position

end Positions

/-! ## The law -/

/-- A calm step in front of the end of a stream. -/
structure UpTo (e : TokenStream) (p : Parser) (st : Step) : Prop where
  tame : Tame p st
  stream : p.stream = e
  position_le : p.position ≤ e.visible.size

theorem Leads.upTo {ss : List Step} {p q : Parser} (h : Leads Tame ss p q)
    (hp : p.position ≤ p.stream.visible.size) : Leads (UpTo p.stream) ss p q := by
  induction h with
  | done p => exact .done p
  | perform ha hs hm _ ih1 ih2 =>
    have hmoves := moves_perform hs
    have hpos := hmoves.within
    have hpos' := hm.moves.within
    have hstream := hm.moves.stream
    rw [hmoves.stream] at ih1 hpos' hstream
    rw [hstream] at ih2
    exact .perform ⟨ha, rfl, hp⟩ hs (ih1 (by omega)) (ih2 (by omega))

/-- The step is closed in front of what follows, or ends before the last token. -/
def Settles (e : TokenStream) (operand : Bool) (st : Step) (p q : Parser) : Prop :=
  q.position = e.visible.size → st.reaches operand = true →
    st = .expr .unary ∧ ¬ p.lookahead.EndsInGroup

/-- A stream holds the tokens of another from a place on, and behind them one that goes on no
expression. The last of them is no mark that something has to follow. -/
structure StopsIn (f : Token → Token) (e s : TokenStream) (d : Nat) : Prop where
  window : e.Window f s d
  angles : e.AnglesIn s d
  stop : (s.nth (e.visible.size + d)).stopsOperands = true
  last : (e.nth (e.visible.size - 1)).kind.dangles = false

section Law

variable {f : Token → Token} {e s : TokenStream} {d : Nat} {p p' q : Parser} {st : Step}
  {ss more : List Step}

theorem StopsIn.stopped (hf : KeepsWords f) (h : StopsIn f e s d) (ha : UpTo e p st) :
    Lookahead.Stopped p.lookahead ⟨s, p.position + d⟩ := by
  obtain ⟨_, rfl, hle⟩ := ha
  have hleft : p.lookahead.left = p.stream.visible.size - p.position := rfl
  have hnth : ∀ n < p.lookahead.left, f (Lookahead.nth ⟨s, p.position + d⟩ n) =
      f (p.lookahead.nth n) := by
    intro n hn
    have hw := h.window (p.position + n) (by omega)
    rwa [Nat.add_right_comm] at hw
  constructor
  · exact fun n hn => hf.kind (hnth n hn)
  · exact fun n hn => hf.word (hnth n hn)
  · exact h.angles.anglesAlike p.position
  · have hstop := h.stop
    rwa [show p.stream.visible.size + d = p.position + d + p.lookahead.left by omega] at hstop
  · rcases Nat.lt_or_eq_of_le hle with hlt | heq
    · have hlast := h.last
      rwa [show p.stream.visible.size - 1 = p.position + (p.lookahead.left - 1) by omega] at hlast
    · rw [Lookahead.kind_of_left_le (by omega)]
      rfl

/-- The law of what a step sees in front of the stop. -/
def SeesStop (f : Token → Token) (e s : TokenStream) (d : Nat) (st : Step) (p q : Parser) : Prop :=
  st.embedded = true →
    Settles e (s.nth (e.visible.size + d)).kind.followsCast st p q →
      Leads (fun p st => Calm true p st ∧ Sees f s d p st) [st] p q

abbrev SeesStopAll (f : Token → Token) (e s : TokenStream) (d : Nat) :
    List Step → Parser → Parser → Prop :=
  Chain fun st p q => Leads (UpTo e) [st] p q ∧ SeesStop f e s d st p q

theorem SeesStopAll.leads (h : SeesStopAll f e s d ss p q) : Leads Tame ss p q := by
  induction ss generalizing p with
  | nil => rw [h]; exact .done p
  | cons st ss ih =>
    obtain ⟨p', ⟨hrun, _⟩, h⟩ := h
    exact (hrun.mono fun _ _ h => h.tame).append (ih h)

/-- Steps that end in front of the last token see the same, and so do steps of which only
such as are closed come to it. -/
theorem sees_all (h : SeesStopAll f e s d ss p q) (hs : ss.all Step.embedded = true)
    (hq : q.position ≤ e.visible.size)
    (hb : q.position = e.visible.size →
      heldBack (s.nth (e.visible.size + d)).kind.followsCast ss = true) :
    Leads (fun p st => Calm true p st ∧ Sees f s d p st) ss p q := by
  induction ss generalizing p with
  | nil => cases h; exact .done _
  | cons st ss ih =>
    obtain ⟨p', ⟨_, hlaw⟩, h⟩ := h
    rw [List.all_cons, Bool.and_eq_true] at hs
    have hle := (SeesStopAll.leads h).moves.position_le
    refine (hlaw hs.1 fun hp' hreach => ?_).append (ih h hs.2 fun hq => ?_)
    · have hheld := hb (by omega)
      rw [heldBack, hreach, Bool.not_true, Bool.false_or, Bool.and_eq_true] at hheld
      have hlt := lt_of_any_urgent (SeesStopAll.leads h) hheld.1
      omega
    · exact (Bool.and_eq_true_iff.1 (hb hq)).2

/-- A part that does nothing at the end of the text is not there in a calm run. -/
theorem left_pos_of_asks {part : ExprPart} (h : Leads Tame [.expr part] p q)
    (hq : q.position ≤ p.stream.visible.size) (ha : part.asks = true) :
    0 < p.lookahead.left := by
  apply Nat.pos_of_ne_zero
  intro h0
  have hsize : p.stream.visible.size - p.position = 0 := h0
  suffices hlt : p.position < q.position by omega
  cases part with
  | primary | member | arraySize => exact lt_of_urgent h rfl
  | argumentList =>
    obtain ⟨p', more, hp, h⟩ := h.inv
    have heof : p.lookahead.kind 0 = .eof := Lookahead.kind_of_left_le (Nat.le_of_eq h0)
    have hsteps : ExprPart.argumentList.expand p.lookahead p.tree.mark = [.expr .list] := by
      rw [ExprPart.expand, Lookahead.atMark_of_eof heof]
      rfl
    rw [perform, hsteps] at hp
    cases hp
    obtain ⟨p', more, hp, h⟩ := h.inv
    cases hp
    exact lt_of_any lt_of_reads h rfl
  | _ => cases ha

/-- An operand that closes what it stands behind. -/
theorem sees_operand (pre : List Step)
    (hm : SeesStopAll f e s d (pre ++ [Step.expr .unary, .finish]) p q)
    (hpre : pre.all Step.embedded = true)
    (hheld : ∀ operand, heldBack operand pre = true) (hq : q.position ≤ e.visible.size)
    (hends : ∀ r, Leads Tame pre p r → ¬ r.lookahead.EndsInGroup) :
    Leads (fun p st => Calm true p st ∧ Sees f s d p st) (pre ++ [Step.expr .unary, .finish]) p q := by
  obtain ⟨r, hbefore, r', ⟨hrun, hoperand⟩, hlast⟩ := Chain.append_iff.1 hm
  have hle := hrun.moves.position_le
  have hle' := (SeesStopAll.leads hlast).moves.position_le
  have hfirst := sees_all hbefore hpre (by omega) fun _ => hheld _
  have hsettles : Settles e (s.nth (e.visible.size + d)).kind.followsCast (.expr .unary) r r' :=
    fun _ _ => ⟨rfl, hends r (SeesStopAll.leads hbefore)⟩
  have hfinish := sees_all hlast rfl hq fun _ => rfl
  exact hfirst.append ((hoperand rfl hsettles).append hfinish)

/-- An operand comes to its end with no type in parentheses if none stands last. -/
theorem sees_unary (hm : SeesStopAll f e s d (unarySteps p.lookahead) p q)
    (hq : q.position ≤ e.visible.size) (hends : ¬ p.lookahead.EndsInGroup) :
    Leads (fun p st => Calm true p st ∧ Sees f s d p st) (unarySteps p.lookahead) p q := by
  have hprefix : ∀ {r : Rule} {m : Mark}, p.lookahead.kind 0 = .mark m →
      m ∈ [.add, .sub, .inc, .dec, .bang, .tilde] →
      SeesStopAll f e s d [.start r, .take 1, .expr .unary, .finish] p q →
      Leads (fun p st => Calm true p st ∧ Sees f s d p st)
        [.start r, .take 1, .expr .unary, .finish] p q := by
    intro r m hk hmem hm
    refine sees_operand [.start r, .take 1] hm rfl (fun _ => rfl) hq ?_
    intro p₂ hrun hgroup
    refine hends (.prefixed m hk hmem ?_)
    obtain ⟨p₁, h₁, h₂⟩ := hrun.uncons
    obtain rfl : p₁ = p.build (·.start r) := h₁.single rfl
    have hpos : p₂.position = p.position + 1 := position_of_take (p := p.build _) h₂
    rwa [lookahead, h₂.moves.stream, hpos] at hgroup
  unfold unarySteps at hm ⊢
  split at hm
  case h_1 | h_2 | h_3 | h_4 | h_5 | h_6 => exact hprefix ‹_› (by simp) hm
  case h_7 hk =>
    split at hm
    · rename_i hcast
      rw [if_pos hcast]
      refine sees_operand [.start .castExpression, .take 1, .typ .type,
        .expect (.mark .rParen)] hm rfl (fun _ => rfl) hq ?_
      intro p₄ hrun hgroup
      have hahead := hcast
      rw [Lookahead.castAhead] at hahead
      split at hahead
      case h_2 => cases hahead
      rename_i n htype
      refine hends (.cast hk htype hcast ?_)
      obtain ⟨p₁, h₁, hrun⟩ := hrun.uncons
      obtain rfl : p₁ = p.build (·.start .castExpression) := h₁.single rfl
      obtain ⟨p₂, h₂, hrun⟩ := hrun.uncons
      obtain ⟨p₃, h₃, h₄⟩ := hrun.uncons
      have hstands : Stands p 1 p₂ := by
        obtain rfl : p₂ = (p.build (·.start .castExpression)).take := h₂.single rfl
        exact ((Stands.refl p).build _).take (by rw [hk]; decide)
      have hpos := position_of_type h₃ hstands htype
      have hpos' := (expect_of_tame (by rfl) h₄).2.2
      have hstream : p₄.stream = p.stream :=
        h₄.moves.stream.trans (h₃.moves.stream.trans hstands.stream)
      rwa [lookahead, hstream, hpos', hpos] at hgroup
    · rename_i hcast
      rw [if_neg hcast]
      exact sees_all hm rfl hq fun _ => by
        cases (s.nth (e.visible.size + d)).kind.followsCast <;> rfl
  case h_8 =>
    exact sees_all hm rfl hq fun _ => by
      cases (s.nth (e.visible.size + d)).kind.followsCast <;> rfl

/-- Every step keeps to the law when the steps that it leads to do. -/
theorem seesStop_perform (hf : KeepsWords f) (h : StopsIn f e s d) (ha : UpTo e p st)
    (hp : p.perform st = (p', .ok more)) (hm : SeesStopAll f e s d more p' q) :
    SeesStop f e s d st p q := by
  intro he hsettles
  have hrun : Leads Tame [st] p q := .perform ha.tame hp (SeesStopAll.leads hm) (.done q)
  have hstream := ha.stream
  have hpos := ha.position_le
  have hq : q.position ≤ e.visible.size := by
    have hwithin := hrun.moves.within
    rw [hstream] at hwithin
    omega
  have hone : Sees f s d p st →
      Leads (fun p st => Calm true p st ∧ Sees f s d p st) more p' q →
      Leads (fun p st => Calm true p st ∧ Sees f s d p st) [st] p q :=
    fun hsees hmore => .perform ⟨ha.tame.calm, hsees⟩ hp hmore (.done q)
  cases st with
  | start _ | wrap _ _ | finish =>
    cases hp
    cases hm
    exact hone trivial (.done _)
  | complain c =>
    obtain ⟨_, rfl⟩ := reportThen_ok hp
    cases hm
    exact hone trivial (.done _)
  | take n =>
    have hleft : n ≤ p.stream.visible.size - p.position := ha.tame.left n rfl
    rw [hstream] at hleft
    refine hone (fun i hi => ?_) ?_
    · rw [hstream, Nat.add_right_comm]
      exact h.window _ (by omega)
    · cases hp
      cases hm
      exact .done _
  | expect x =>
    obtain ⟨hacc, rfl, rfl⟩ := expect_calm ha.tame.calm rfl hp
    have hlt : p.position < p.stream.visible.size :=
      (kind_ne_eof_iff p).1 (Expected.kind_ne_eof (v := p.lookahead) he hacc)
    rw [hstream] at hlt
    refine hone ?_ ?_
    · show f (s.nth (p.position + d)) = f (p.stream.nth p.position)
      rw [hstream]
      exact h.window _ hlt
    · cases hm
      exact .done _
  | typ part =>
    refine hone (part.expand_stopped (h.stopped hf ha) ?_) ?_
    · rintro rfl
      have hlt := lt_of_essential hrun rfl rfl
      show 0 < p.stream.visible.size - p.position
      rw [hstream]
      omega
    · cases hp
      exact sees_all hm part.all_embedded hq fun _ => part.heldBack
  | soql part =>
    have hlt : q.position < e.visible.size := by
      refine Nat.lt_of_le_of_ne hq fun heq => ?_
      have := (hsettles heq rfl).1
      cases this
    have hle := hrun.moves.position_le
    refine hone (part.expand_stopped (h.stopped hf ha) ?_) ?_
    · show 0 < p.stream.visible.size - p.position
      rw [hstream]
      omega
    · cases hp
      exact sees_all hm part.all_embedded hq fun heq => absurd heq (Nat.ne_of_lt hlt)
  | expr part =>
    have hstopped := h.stopped hf ha
    refine hone (fun mark => part.expand_stopped hstopped mark ?_ ?_) ?_
    · rintro rfl hk
      cases hp
      obtain ⟨i, hi, hparen, hlt⟩ := exists_rParen_of_unary (SeesStopAll.leads hm) hk
      refine hstopped.castAhead hi hparen fun hfollows n hn htype hclose hlast => ?_
      have hleft : p.lookahead.left = e.visible.size - p.position := by rw [← hstream]; rfl
      have hend : p.lookahead.kind (n + 1) = .eof :=
        Lookahead.kind_of_left_le (Nat.le_of_eq hlast.symm)
      change (s.nth (p.position + d + p.lookahead.left)).kind.followsCast = true at hfollows
      rw [show p.position + d + p.lookahead.left = e.visible.size + d by omega] at hfollows
      have hreach : (Step.expr .unary).reaches (s.nth (e.visible.size + d)).kind.followsCast =
          true := by
        rw [hfollows]
        rfl
      exact (hsettles (by omega) hreach).2 (.group hk htype hclose hend)
    · exact left_pos_of_asks hrun (by rwa [hstream])
    · cases hp
      by_cases hreach :
          (Step.expr part).reaches (s.nth (e.visible.size + d)).kind.followsCast = true
      · by_cases heq : q.position = e.visible.size
        · obtain ⟨hpart, hends⟩ := hsettles heq hreach
          cases hpart
          exact sees_unary hm hq hends
        · exact sees_all hm (part.all_embedded _) hq fun h => absurd h heq
      · refine sees_all hm (part.all_embedded _) hq fun _ => part.heldBack _ fun hoperand => ?_
        rw [hoperand] at hreach
        simpa [Step.reaches] using hreach
  | _ => cases he

/-- A calm run of a part sees the same in front of a stop. -/
theorem sees_of_tame (hf : KeepsWords f) (h : StopsIn f e s d) (hrun : Leads Tame [st] p q)
    (he : st.embedded = true) (hp : p.stream = e) (hle : p.position ≤ e.visible.size)
    (hsettles : Settles e (s.nth (e.visible.size + d)).kind.followsCast st p q) :
    Leads (fun p st => Calm true p st ∧ Sees f s d p st) [st] p q := by
  subst hp
  have hlaw : SeesStopAll f p.stream s d [st] p q :=
    (hrun.upTo hle).chain_of_allowed fun ha hs _ hm => seesStop_perform hf h ha hs hm
  obtain ⟨_, ⟨_, hlaw⟩, rfl⟩ := hlaw
  exact hlaw he hsettles

end Law

end Parser

end ApexSyntax
