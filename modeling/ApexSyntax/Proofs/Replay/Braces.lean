-- A unit ends with a brace, and nothing that is read in front of it looks behind it. A calm
-- run comes to the last brace with nothing but nodes to close; each step on the way stands
-- in front of a token that no decision looks past, or reads one token, or does at the end
-- of the text what it does at a brace.
import ApexSyntax.Proofs.Replay.Windows

namespace ApexSyntax

namespace Step

/-- The step reads the current token, and looks at no other. -/
def readsOne : Step → Bool
  | take n => n == 1
  | expect _ => true
  | _ => false

/-- The step does at the end of the text what it does at a closing brace, and elsewhere it
looks at nothing but the current token. -/
def halts : Step → Bool
  | finish | progress _ | stmt .elseBranch | stmt .moreHandlers => true
  | decl .classMembers | decl .interfaceMembers | decl .triggerMembers => true
  | decl .enumConstants | decl .moreConstants => true
  | _ => false

theorem halts_of_trails {s : Step} (h : s.trails = true) : s.halts = true := by
  cases s with
  | finish | progress _ => rfl
  | stmt part => cases part <;> first | rfl | cases h
  | _ => cases h

end Step

/-- What a list of members up to a closing brace consists of. -/
def DeclPart.item? : DeclPart → Option Step
  | classMembers => some (.decl .classMember)
  | interfaceMembers => some (.decl .interfaceMethod)
  | triggerMembers => some (.decl (.blockMember .triggerBlockMember))
  | _ => none

section Items

variable {part : DeclPart} {item : Step}

theorem DeclPart.expand_of_item (h : part.item? = some item) (v : Lookahead) :
    part.expand v = untilBrace v item (.decl part) := by
  cases part with
  | classMembers | interfaceMembers | triggerMembers => cases h; rfl
  | _ => cases h

theorem DeclPart.sealed_of_item (h : part.item? = some item) : item.sealed = true := by
  cases part with
  | classMembers | interfaceMembers | triggerMembers => cases h; rfl
  | _ => cases h

theorem DeclPart.halts_of_item (h : part.item? = some item) : (Step.decl part).halts = true := by
  cases part with
  | classMembers | interfaceMembers | triggerMembers => rfl
  | _ => cases h

end Items

namespace Parser

/-! ## Runs that are left off -/

/-- Performed one after the other, the steps lead to others that are still to be performed. -/
inductive Comes (allowed : Parser → Step → Prop) :
    List Step → Parser → List Step → Parser → Prop
  | here (ss : List Step) (p : Parser) : Comes allowed ss p ss p
  | perform {s : Step} {more rest ts : List Step} {p p' q : Parser} :
      allowed p s → p.perform s = (p', .ok more) → Comes allowed (more ++ rest) p' ts q →
      Comes allowed (s :: rest) p ts q

namespace Comes

variable {allowed allowed' : Parser → Step → Prop} {ss ts us : List Step} {p q r : Parser}

theorem mono (h : Comes allowed ss p ts q) (hs : ∀ p s, allowed p s → allowed' p s) :
    Comes allowed' ss p ts q := by
  induction h with
  | here ss p => exact .here ss p
  | perform ha hp _ ih => exact .perform (hs _ _ ha) hp ih

theorem trans (h : Comes allowed ss p ts q) (h' : Comes allowed ts q us r) :
    Comes allowed ss p us r := by
  induction h with
  | here _ _ => exact h'
  | perform ha hp _ ih => exact .perform ha hp (ih h')

theorem append (h : Comes allowed ss p ts q) (us : List Step) :
    Comes allowed (ss ++ us) p (ts ++ us) q := by
  induction h with
  | here ss p => exact .here (ss ++ us) p
  | perform ha hp _ ih =>
    rw [List.append_assoc] at ih
    exact .perform ha hp ih

theorem moves (h : Comes allowed ss p ts q) : Moves p q := by
  induction h with
  | here _ p => exact .refl p
  | perform _ hp _ ih => exact (moves_perform hp).trans ih

/-- A run stays on its stream. -/
theorem onStream (h : Comes allowed ss p ts q) :
    Comes (fun p' s => allowed p' s ∧ p'.stream = p.stream) ss p ts q := by
  induction h with
  | here ss p => exact .here ss p
  | perform ha hp _ ih =>
    rw [(moves_perform hp).stream] at ih
    exact .perform ⟨ha, rfl⟩ hp ih

/-- A run that goes on where another was left off. -/
theorem leads (h : Comes allowed ss p ts q) (h' : Leads allowed ts q r) : Leads allowed ss p r := by
  induction h with
  | here _ _ => exact h'
  | perform ha hp _ ih =>
    obtain ⟨_, h1, h2⟩ := (ih h').split
    exact .perform ha hp h1 h2

end Comes

/-- Performed to the end, some steps leave the others behind them. -/
theorem Leads.comes {allowed : Parser → Step → Prop} {ss : List Step} {p q : Parser}
    (h : Leads allowed ss p q) (ts : List Step) : Comes allowed (ss ++ ts) p ts q := by
  induction h generalizing ts with
  | done p => exact .here ts p
  | perform ha hp _ _ ih1 ih2 => exact .perform ha hp ((ih1 _).trans (ih2 ts))

/-- There is only one run, wherever it is left off. -/
theorem Leads.behind {allowed allowed' : Parser → Step → Prop} {ss ts : List Step}
    {p q r : Parser} (h : Leads allowed ss p r) (hc : Comes allowed' ss p ts q) :
    Leads allowed ts q r := by
  induction hc with
  | here _ _ => exact h
  | perform _ hp _ ih =>
    cases h with
    | perform _ hp' hm hrest =>
      rw [hp] at hp'
      cases hp'
      exact ih (hm.append hrest)

/-! ## Steps up to a place -/

/-- A calm step that does not depend on what stands at a place and behind it, apart from
there being a brace or the end of the text. -/
structure Ahead (e : Nat) (p : Parser) (s : Step) : Prop where
  calm : Calm true p s
  place : (∃ j, p.position ≤ j ∧ j < e ∧ (p.stream.nth j).isBoundary = true ∧
      ∀ n, s = .take n → p.position + n ≤ j + 1) ∨
    (p.position < e ∧ s.readsOne = true) ∨ (p.position ≤ e ∧ s.halts = true)

/-- The steps come to a closing brace, with some others left behind it. -/
structure ComesToBrace (ss ts : List Step) (p b : Parser) : Prop where
  comes : Comes (Ahead b.position) ss p (.expect (.mark .rBrace) :: ts) b
  brace : b.lookahead.kind 0 = .mark .rBrace

section Places

variable {p p' q b : Parser} {s : Step} {ss ts more rest : List Step} {e i : Nat}

theorem ahead_of_inside (h : Inside i p s) (hi : i ≤ e)
    (hb : (p.stream.nth (i - 1)).isBoundary = true) : Ahead e p s := by
  refine ⟨h.calm, ?_⟩
  rcases h.place with ⟨hp, hn⟩ | ⟨rfl, ht, _⟩
  · refine .inl ⟨i - 1, by omega, by omega, hb, fun n hs => ?_⟩
    have hle := hn n hs
    omega
  · exact .inr (.inr ⟨hi, Step.halts_of_trails ht⟩)

theorem Leads.ahead_of_inside (h : Leads (Inside i) ss p q) (hi : i ≤ e)
    (hb : (p.stream.nth (i - 1)).isBoundary = true) : Leads (Ahead e) ss p q := by
  refine h.onStream.mono ?_
  rintro p' s ⟨hin, hstream⟩
  exact Parser.ahead_of_inside hin hi (by rwa [hstream])

theorem Sealed.ahead (h : Sealed ss p q) (hs : p.stream.Spelled) (he : q.position ≤ e) :
    Leads (Ahead e) ss p q :=
  h.inside.ahead_of_inside he (h.isBoundary hs)

theorem position_take_of_kind (h : p.lookahead.kind 0 ≠ .eof) :
    p.take.position = p.position + 1 :=
  behind_of_lt ((kind_ne_eof_iff p).1 h)

theorem Leads.calm (h : Leads Tame [s] p q) : Calm true p s := by
  cases h with
  | perform ha _ _ _ => exact ha.calm

/-- In a calm run, an expected token is read. -/
theorem expect_of_tame {x : Expected} (hx : x.isReal = true) (h : Leads Tame [.expect x] p q) :
    x.accepts p.current = true ∧ q = p.take ∧ q.position = p.position + 1 := by
  have ha := h.calm
  obtain ⟨p', more, hp, hm⟩ := h.inv
  obtain ⟨hacc, rfl, rfl⟩ := expect_calm ha rfl hp
  cases hm
  exact ⟨hacc, rfl, position_take_of_kind (Expected.kind_ne_eof (v := p.lookahead) hx hacc)⟩

/-- A brace that is expected in a calm run is there. -/
theorem comesToBrace_here (h : Leads Tame (.expect (.mark .rBrace) :: ts) p q) :
    ComesToBrace (.expect (.mark .rBrace) :: ts) ts p p := by
  obtain ⟨p', h1, _⟩ := h.uncons
  exact ⟨.here _ p, beq_iff_eq.1 (expect_of_tame (by rfl) h1).1⟩

namespace ComesToBrace

theorem position_le (h : ComesToBrace ss ts p b) : p.position ≤ b.position :=
  h.comes.moves.position_le

theorem append (h : ComesToBrace ss ts p b) (us : List Step) :
    ComesToBrace (ss ++ us) (ts ++ us) p b :=
  ⟨h.comes.append us, h.brace⟩

theorem step (ha : Ahead b.position p s) (hp : p.perform s = (p', .ok more))
    (h : ComesToBrace (more ++ rest) ts p' b) : ComesToBrace (s :: rest) ts p b :=
  ⟨.perform ha hp h.comes, h.brace⟩

theorem run (hr : Leads (Ahead b.position) ss p p') (h : ComesToBrace rest ts p' b) :
    ComesToBrace (ss ++ rest) ts p b :=
  ⟨(hr.comes rest).trans h.comes, h.brace⟩

/-- A part that does at the end of the text what it does at a brace. -/
theorem part {part : DeclPart} (ha : Calm true p (.decl part))
    (hs : (Step.decl part).halts = true) (h : ComesToBrace (part.expand p.lookahead) ts p b) :
    ComesToBrace [.decl part] ts p b :=
  step ⟨ha, .inr (.inr ⟨h.position_le, hs⟩)⟩ rfl (by rwa [List.append_nil])

/-- A token that is taken in front of the brace. -/
theorem take (ha : Calm true p (.take 1)) (hk : p.lookahead.kind 0 ≠ .eof)
    (h : ComesToBrace rest ts p.take b) : ComesToBrace (.take 1 :: rest) ts p b := by
  have hle := h.position_le
  rw [position_take_of_kind hk] at hle
  exact step ⟨ha, .inr (.inl ⟨hle, rfl⟩)⟩ rfl h

end ComesToBrace

end Places

/-! ## Lists up to a brace -/

section Members

variable {p p' q : Parser} {part : DeclPart} {item : Step}

/-- One turn of a list of members: the brace, a stray semicolon, or a member. -/
theorem comesToBrace_turn (ha : Tame p (.decl part)) (hi : part.item? = some item)
    (hs : p.stream.Spelled)
    (hm : Chain (fun s p' q => Leads (fun p' s => Tame p' s ∧ p'.stream = p.stream) [s] p' q ∧
      (s = .decl part → ∃ b, ComesToBrace [s] [] p' b)) (part.expand p.lookahead) p q) :
    ∃ b, ComesToBrace [.decl part] [] p b := by
  have hexp := part.expand_of_item hi p.lookahead
  have hpart : ∀ b, ComesToBrace (part.expand p.lookahead) [] p b →
      ComesToBrace [.decl part] [] p b := fun b => .part ha.calm (part.halts_of_item hi)
  rw [hexp] at hm hpart
  unfold untilBrace at hm hpart
  split at hm
  · rename_i hv
    rw [if_pos hv] at hpart
    obtain ⟨q, ⟨h1, _⟩, rfl⟩ := hm
    exact ⟨p, hpart p (comesToBrace_here (h1.mono fun _ _ h => h.1))⟩
  · rename_i hv
    rw [if_neg hv] at hpart
    split at hm
    · rename_i hv
      rw [if_pos hv] at hpart
      obtain ⟨p1, ⟨h1, _⟩, q, ⟨_, hrest⟩, rfl⟩ := hm
      obtain rfl := h1.single rfl
      obtain ⟨b, hb⟩ := hrest rfl
      have hk : p.lookahead.kind 0 ≠ .eof := by
        rw [beq_iff_eq.1 hv]
        simp
      exact ⟨b, hpart b (hb.take (h1.mono fun _ _ h => h.1).calm hk)⟩
    · rename_i hv
      rw [if_neg hv] at hpart
      obtain ⟨p1, ⟨h1, _⟩, p2, ⟨h2, _⟩, q, ⟨_, hrest⟩, rfl⟩ := hm
      have hsealed := sealed_of_tame (h1.mono fun _ _ h => h.1) (part.sealed_of_item hi)
      have hne : p1.position ≠ p.lookahead.position := Nat.ne_of_gt hsealed.moved
      have hprogress : p1.perform (.progress p.lookahead.position) = (p1, .ok []) := by
        rw [perform, if_neg hne]
      obtain rfl := h2.single hprogress
      obtain ⟨b, hb⟩ := hrest rfl
      refine ⟨b, hpart b (.run (hsealed.ahead hs hb.position_le) ?_)⟩
      exact .step ⟨(h2.mono fun _ _ h => h.1).calm, .inr (.inr ⟨hb.position_le, rfl⟩)⟩ hprogress hb

theorem comesToBrace_of_item (hi : part.item? = some item) (hs : p.stream.Spelled)
    (h : Leads Tame [.decl part] p q) : ∃ b, ComesToBrace [.decl part] [] p b := by
  have hlaw := h.onStream.chain_of_allowed (C := fun s p' q =>
    s = .decl part → ∃ b, ComesToBrace [s] [] p' b) ?_
  · obtain ⟨q, ⟨_, hon⟩, rfl⟩ := hlaw
    exact hon rfl
  · rintro s p1 p2 more q1 ⟨ha, hstream⟩ hp _ hm rfl
    cases hp
    exact comesToBrace_turn ha hi (by rwa [hstream]) (by simpa only [hstream] using hm)

end Members

section Constants

variable {p q : Parser} {e : Nat}

/-- The constants behind the first one are told apart by single tokens. -/
theorem ahead_moreConstants (h : Leads Tame [.decl .moreConstants] p q) (he : q.position ≤ e) :
    Leads (Ahead e) [.decl .moreConstants] p q := by
  have hlaw := h.chain_of_allowed (C := fun s p q =>
    s = .decl .moreConstants → q.position ≤ e → Leads (Ahead e) [s] p q) ?_
  · obtain ⟨q, ⟨_, hon⟩, rfl⟩ := hlaw
    exact hon rfl he
  · rintro s p p' more q ha hp hrun hm rfl he
    have hpos := (moves_perform hp).position_le
    have hpos' := hrun.moves.position_le
    refine .perform ⟨ha.calm, .inr (.inr ⟨by omega, rfl⟩)⟩ hp ?_ (.done q)
    cases hp
    simp only [DeclPart.expand] at hm ⊢
    split at hm
    · rename_i hv
      rw [if_pos hv]
      obtain ⟨p1, ⟨h1, _⟩, p2, ⟨h2, _⟩, q, ⟨h3, hrest⟩, rfl⟩ := hm
      obtain rfl : p1 = p.take := h1.single rfl
      have hk : p.lookahead.kind 0 ≠ .eof := by
        rw [beq_iff_eq.1 hv]
        simp
      have h1p := position_take_of_kind hk
      obtain ⟨_, rfl, h2p⟩ := expect_of_tame (by rfl) h2
      have h3p := h3.moves.position_le
      have htake : p.perform (.take 1) = (p.take, .ok []) := rfl
      refine .perform ⟨h1.calm, .inr (.inl ⟨by omega, rfl⟩)⟩ htake (.done _) ?_
      obtain ⟨_, _, hperf, hdone⟩ := h2.inv
      obtain ⟨_, rfl, rfl⟩ := expect_calm h2.calm rfl hperf
      exact .perform ⟨h2.calm, .inr (.inl ⟨by omega, rfl⟩)⟩ hperf (.done _) (hrest rfl he)
    · rename_i hv
      rw [if_neg hv]
      cases hm
      exact .done _

theorem comesToBrace_enumConstants (h : Leads Tame [.decl .enumConstants] p q) :
    ∃ b, ComesToBrace [.decl .enumConstants] [] p b := by
  obtain ⟨p', more, hp, hm⟩ := h.inv
  cases hp
  have hpart : ∀ b, ComesToBrace (DeclPart.enumConstants.expand p.lookahead) [] p b →
      ComesToBrace [.decl .enumConstants] [] p b := fun b => .part h.calm rfl
  simp only [DeclPart.expand] at hm hpart
  split at hm
  · rename_i hv
    rw [if_pos hv] at hpart
    obtain ⟨p1, h1, hm⟩ := hm.uncons
    obtain ⟨p2, h2, h3⟩ := hm.uncons
    have hb := comesToBrace_here h3
    obtain ⟨_, rfl, h1p⟩ := expect_of_tame (by rfl) h1
    have h2p := h2.moves.position_le
    obtain ⟨_, _, hperf, _⟩ := h1.inv
    obtain ⟨_, rfl, rfl⟩ := expect_calm h1.calm rfl hperf
    refine ⟨p2, hpart p2 (.step ⟨h1.calm, .inr (.inl ⟨by omega, rfl⟩)⟩ hperf ?_)⟩
    have hcomes := ComesToBrace.run (ahead_moreConstants h2 (Nat.le_refl _)) hb
    exact hcomes
  · rename_i hv
    rw [if_neg hv] at hpart
    exact ⟨p, hpart p (comesToBrace_here hm)⟩

end Constants

/-! ## Declarations -/

/-- The steps come to a closing brace, with nothing but nodes to close behind it. In front
of it stands a token that no decision looks past. -/
def Enclosed (ss : List Step) (p : Parser) : Prop :=
  ∃ n b j, ComesToBrace ss (List.replicate n .finish) p b ∧
    p.position ≤ j ∧ j < b.position ∧ (p.stream.nth j).isBoundary = true

namespace Enclosed

variable {p p' q : Parser} {s : Step} {ss pre : List Step}

theorem finishes (h : Enclosed ss p) (n : Nat) : Enclosed (ss ++ List.replicate n Step.finish) p := by
  obtain ⟨m, b, j, hb, hj⟩ := h
  refine ⟨m + n, b, j, ?_, hj⟩
  rw [← List.replicate_append_replicate]
  exact hb.append _

theorem behind (hr : Leads Tame pre p p') (h : Enclosed ss p') : Enclosed (pre ++ ss) p := by
  obtain ⟨m, b, j, hb, hpj, hjb, hj⟩ := h
  have hle := hr.moves.position_le
  rw [hr.moves.stream] at hj
  have hin : Leads (Inside (j + 1)) pre p p' := inside_of_lt hr (by omega)
  exact ⟨m, b, j, .run (hin.ahead_of_inside hjb hj) hb, by omega, hjb, hj⟩

theorem part {part : DeclPart} (ha : Calm true p (.decl part))
    (h : Enclosed (part.expand p.lookahead) p) : Enclosed [.decl part] p := by
  obtain ⟨m, b, j, hb, hpj, hjb, hj⟩ := h
  refine ⟨m, b, j, .step ⟨ha, .inl ⟨j, hpj, hjb, hj, by simp⟩⟩ rfl ?_, hpj, hjb, hj⟩
  rwa [List.append_nil]

/-- Steps with one among them that is enclosed, and nothing but nodes to close behind it. -/
theorem within (pre : List Step) (n : Nat)
    (h : Leads Tame (pre ++ s :: List.replicate n .finish) p q)
    (hs : ∀ p' q', p'.stream = p.stream → Leads Tame [s] p' q' → Enclosed [s] p') :
    Enclosed (pre ++ s :: List.replicate n .finish) p := by
  obtain ⟨p1, h1, h2⟩ := h.split
  obtain ⟨p2, h3, _⟩ := h2.uncons
  exact .behind h1 ((hs p1 p2 h1.moves.stream h3).finishes n)

end Enclosed

section Declarations

variable {p q : Parser} {part : DeclPart}

/-- What opens with a brace. -/
theorem enclosed_brace (hs : p.stream.Spelled)
    (hb : ∀ p' q', p'.stream = p.stream → Leads Tame [.decl part] p' q' →
      ∃ b, ComesToBrace [.decl part] [] p' b)
    (h : Leads Tame [.expectThen (.mark .lBrace) (.decl part)] p q) :
    Enclosed [.expectThen (.mark .lBrace) (.decl part)] p := by
  obtain ⟨p', more, hp, hm⟩ := h.inv
  obtain ⟨hacc, rfl, rfl⟩ := expect_calm h.calm rfl hp
  have hk : p.lookahead.kind 0 = .mark .lBrace := beq_iff_eq.1 hacc
  have hpos : p.take.position = p.position + 1 := position_take_of_kind (by rw [hk]; simp)
  obtain ⟨b, hb⟩ := hb p.take q rfl hm
  have hle := hb.position_le
  have hword : (p.stream.nth p.position).word = "" :=
    hs.word_nth (by rw [show (p.stream.nth p.position).kind = _ from hk]; rfl)
  have hj : (p.stream.nth p.position).isBoundary = true := by
    simp [Token.isBoundary, hword, show (p.stream.nth p.position).kind = _ from hk]
  refine ⟨0, b, p.position, ?_, Nat.le_refl _, by omega, hj⟩
  exact .step ⟨h.calm, .inl ⟨p.position, Nat.le_refl _, by omega, hj, by simp⟩⟩ hp hb

theorem enclosed_members {item : Step} (hi : part.item? = some item) (hs : p.stream.Spelled)
    (h : Leads Tame [.expectThen (.mark .lBrace) (.decl part)] p q) :
    Enclosed [.expectThen (.mark .lBrace) (.decl part)] p :=
  enclosed_brace hs (fun _ _ hstream => comesToBrace_of_item hi (by rwa [hstream])) h

theorem enclosed_classBody (hs : p.stream.Spelled) (h : Leads Tame [.decl .classBody] p q) :
    Enclosed [.decl .classBody] p := by
  obtain ⟨p', more, hp, hm⟩ := h.inv
  cases hp
  refine .part h.calm (.within [.start .classBody] 1 hm ?_)
  exact fun _ _ hstream => enclosed_members rfl (by rwa [hstream])

theorem enclosed_triggerBlock (hs : p.stream.Spelled)
    (h : Leads Tame [.decl .triggerBlock] p q) : Enclosed [.decl .triggerBlock] p := by
  obtain ⟨p', more, hp, hm⟩ := h.inv
  cases hp
  refine .part h.calm (.within [.start .triggerBlock] 1 hm ?_)
  exact fun _ _ hstream => enclosed_members rfl (by rwa [hstream])

theorem enclosed_declaredType (hs : p.stream.Spelled)
    (h : Leads Tame [.decl .declaredType] p q) : Enclosed [.decl .declaredType] p := by
  obtain ⟨p', more, hp, hm⟩ := h.inv
  cases hp
  refine .part h.calm ?_
  simp only [DeclPart.expand] at hm ⊢
  split at hm
  · refine .within [.start .classDeclaration, .take 1, .expect .identifier,
      .decl .superclass, .decl .interfaces] 1 hm ?_
    exact fun _ _ hstream => enclosed_classBody (by rwa [hstream])
  · refine .within [.start .interfaceDeclaration, .take 1, .expect .identifier,
      .decl .superinterfaces, .start .interfaceBody] 2 hm ?_
    exact fun _ _ hstream => enclosed_members rfl (by rwa [hstream])
  · refine .within [.start .enumDeclaration, .take 1, .expect .identifier] 1 hm ?_
    intro _ _ hstream
    exact enclosed_brace (by rwa [hstream]) fun _ _ _ => comesToBrace_enumConstants
  · exact (not_calm_of_refuses hm rfl).elim

theorem enclosed_declaration (hs : p.stream.Spelled)
    (h : Leads Tame [.decl .declaration] p q) : Enclosed [.decl .declaration] p := by
  obtain ⟨p', more, hp, hm⟩ := h.inv
  cases hp
  refine .part h.calm (.within [.start .typeDeclaration, .decl .modifiers] 1 hm ?_)
  exact fun _ _ hstream => enclosed_declaredType (by rwa [hstream])

end Declarations

end Parser

end ApexSyntax
