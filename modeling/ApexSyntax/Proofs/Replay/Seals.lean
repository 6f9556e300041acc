-- Members end with a semicolon or a closing brace, and look at nothing behind it but for
-- what may go on a conditional or a try. So a calm run of one depends on no token behind
-- its own, as long as none of those follow.
import ApexSyntax.Proofs.Replay.Takes

namespace ApexSyntax

/-! ## Steps at the end of a member -/

/-- A mark that statements and members end with. -/
def Mark.seals : Mark → Bool
  | semi | rBrace => true
  | _ => false

namespace Step

/-- The step reads something, and last a semicolon or a closing brace. -/
def sealed : Step → Bool
  | expect (.kind (.mark m)) => m.seals
  | expectThen _ next => next.sealed
  | stmt .block | stmt .blockStatements | stmt .statement | stmt .loopBody => true
  | stmt .whenClauses | stmt .moreWhenClauses | stmt .handlers => true
  | decl (.blockMember _) | decl .member | decl .declaredType | decl .declaration => true
  | decl .classBody | decl .classMembers | decl .classMember | decl .method => true
  | decl .methodBody | decl .field | decl .property | decl .accessors | decl .accessor => true
  | decl .accessorKind | decl .accessorBody => true
  | decl .interfaceMembers | decl .interfaceMethod | decl .enumConstants => true
  | _ => false

/-- The step reads nothing, or ends as a sealed one does. -/
def trails : Step → Bool
  | finish | progress _ | stmt .elseBranch | stmt .moreHandlers => true
  | _ => false

/-- A calm run performs no such step. -/
def refuses : Step → Bool
  | complain _ | skip => true
  | _ => false

end Step

/-- Behind a sealed step there is nothing but what trails. -/
def sealsAtEnd : List Step → Bool
  | [] => false
  | s :: ss => sealsAtEnd ss || s.sealed && ss.all Step.trails

namespace Parser

/-! ## Runs up to a place -/

/-- A calm step in front of a place, or one that trails and does nothing there. -/
structure Inside (e : Nat) (p : Parser) (s : Step) : Prop where
  calm : Calm true p s
  place : (p.position < e ∧ ∀ n, s = .take n → p.position + n ≤ e) ∨
    (p.position = e ∧ s.trails = true ∧ (p.perform s).2 = .ok [])

/-- A run of the steps ends with a semicolon or a closing brace, and depends on nothing
behind it. -/
structure Sealed (ss : List Step) (p q : Parser) : Prop where
  moved : p.position < q.position
  closing : ∃ m : Mark, m.seals = true ∧ (q.stream.nth (q.position - 1)).kind = .mark m
  inside : Leads (Inside q.position) ss p q

/-- The step reads nothing and looks at nothing. -/
structure Rests (s : Step) (p q : Parser) : Prop where
  position : q.position = p.position
  inside : Leads (Inside p.position) [s] p q

/-- The law of sealed steps and of those that trail. -/
structure Seals (s : Step) (p q : Parser) : Prop where
  sealed : s.sealed = true → Sealed [s] p q
  trails : s.trails = true → Rests s p q ∨ Sealed [s] p q

abbrev SealsAll : List Step → Parser → Parser → Prop :=
  Chain fun s p q => Leads Tame [s] p q ∧ Seals s p q

section Lists

variable {p p' q r : Parser} {s : Step} {ss ts more : List Step} {e e' : Nat}

theorem Inside.mono (h : Inside e p s) (he : e < e') : Inside e' p s := by
  refine ⟨h.calm, .inl ?_⟩
  rcases h.place with ⟨hp, hn⟩ | ⟨hp, ht, _⟩
  · refine ⟨by omega, fun n hs => ?_⟩
    have hle := hn n hs
    omega
  · refine ⟨by omega, ?_⟩
    rintro n rfl
    cases ht

theorem inside_of_lt (h : Leads Tame ss p q) (he : q.position < e) : Leads (Inside e) ss p q := by
  induction h with
  | done p => exact .done p
  | @perform s more rest p p' q r ha hp hm hrest ih1 ih2 =>
    have h1 := (moves_perform hp).position_le
    have h2 := hm.moves.position_le
    have h3 := hrest.moves.position_le
    refine .perform ⟨ha.calm, .inl ⟨by omega, ?_⟩⟩ hp (ih1 (by omega)) (ih2 he)
    rintro n rfl
    cases hp
    have hn := position_takeMany (ha.left n rfl)
    omega

theorem SealsAll.leads (h : SealsAll ss p q) : Leads Tame ss p q := by
  induction ss generalizing p with
  | nil => rw [h]; exact .done p
  | cons s ss ih =>
    obtain ⟨p', ⟨hrun, _⟩, h⟩ := h
    exact hrun.append (ih h)

/-- What trails a sealed run leaves it sealed. -/
theorem Sealed.behind (h : Sealed ss p q) (ht : SealsAll ts q r)
    (hts : ts.all Step.trails = true) : Sealed (ss ++ ts) p r := by
  induction ts generalizing ss q with
  | nil =>
    obtain rfl : r = q := ht
    rwa [List.append_nil]
  | cons t ts ih =>
    obtain ⟨q', ⟨hrun, hs⟩, ht⟩ := ht
    rw [List.all_cons, Bool.and_eq_true] at hts
    have hnext : Sealed (ss ++ [t]) p q' := by
      rcases hs.trails hts.1 with hr | hs
      · refine ⟨by rw [hr.position]; exact h.moved, ?_, ?_⟩
        · rw [hr.position, hrun.moves.stream]
          exact h.closing
        · rw [hr.position]
          exact h.inside.append hr.inside
      · have hle := h.moved
        have hlt := hs.moved
        refine ⟨by omega, hs.closing, ?_⟩
        exact (h.inside.mono fun _ _ hi => hi.mono hlt).append hs.inside
    have hall := ih hnext ht hts.2
    rwa [List.append_assoc] at hall

theorem sealed_all (h : SealsAll ss p q) (hs : sealsAtEnd ss = true) : Sealed ss p q := by
  induction ss generalizing p with
  | nil => cases hs
  | cons s ss ih =>
    obtain ⟨p', ⟨hrun, hlaw⟩, h⟩ := h
    rw [sealsAtEnd, Bool.or_eq_true, Bool.and_eq_true] at hs
    rcases hs with hs | ⟨hs, ht⟩
    · have hrest := ih h hs
      have hle := hrun.moves.position_le
      have hlt := hrest.moved
      exact ⟨by omega, hrest.closing, (inside_of_lt hrun hlt).append hrest.inside⟩
    · exact (hlaw.sealed hs).behind h ht

/-- A step is sealed when the steps that it leads to are. -/
theorem Sealed.ofMore (ha : Calm true p s) (hs : ∀ n, s ≠ .take n)
    (hp : p.perform s = (p', .ok more)) (h : Sealed more p' q) : Sealed [s] p q := by
  have hle := (moves_perform hp).position_le
  have hlt := h.moved
  refine ⟨by omega, h.closing, .perform ⟨ha, .inl ⟨by omega, ?_⟩⟩ hp h.inside (.done q)⟩
  intro n hn
  exact absurd hn (hs n)

theorem not_calm_of_refuses (h : Leads Tame ss p q) (hr : ss.any Step.refuses = true) : False := by
  induction h with
  | done p => cases hr
  | @perform s more rest p p' q r ha hp hm hrest ih1 ih2 =>
    rw [List.any_cons, Bool.or_eq_true] at hr
    rcases hr with hr | hr
    · cases s with
      | complain c =>
        obtain ⟨hrep, _⟩ := reportThen_ok hp
        exact absurd rfl (ne_true_of_report ha.calm hp hrep)
      | skip => exact (ha.calm rfl).1 trivial
      | _ => cases hr
    · exact ih2 hr

/-- A mark that is read alone. -/
theorem sealed_take {m : Mark} (ha : Calm true p s) (hn : ∀ n, s = .take n → n = 1)
    (hm : m.seals = true) (hv : p.lookahead.kind 0 = .mark m)
    (hp : p.perform s = (p.take, .ok [])) : Sealed [s] p p.take := by
  have hpos : p.take.position = p.position + 1 := by
    refine behind_of_lt ((kind_ne_eof_iff p).1 ?_)
    rw [hv]
    exact nofun
  refine ⟨by omega, ⟨m, hm, by rw [hpos]; exact hv⟩, ?_⟩
  refine .perform ⟨ha, .inl ⟨by omega, fun n hs => ?_⟩⟩ hp (.done _) (.done _)
  have h1 := hn n hs
  omega

theorem rests_of_done (ha : Calm true p s) (ht : s.trails = true)
    (hp : p.perform s = (p', .ok [])) (hpos : p'.position = p.position) : Rests s p p' :=
  ⟨hpos, .perform ⟨ha, .inr ⟨rfl, ht, by rw [hp]⟩⟩ hp (.done _) (.done _)⟩

end Lists

/-! ## The law -/

section Law

variable {p p' q : Parser} {s : Step} {more : List Step}

/-- A part whose steps are sealed, or are not performed in a calm run. -/
theorem sealed_part (ha : Calm true p s) (hs : ∀ n, s ≠ .take n)
    (hp : p.perform s = (p', .ok more)) (hm : SealsAll more p' q)
    (h : sealsAtEnd more = true ∨ more.any Step.refuses = true) : Sealed [s] p q := by
  rcases h with h | h
  · exact .ofMore ha hs hp (sealed_all hm h)
  · exact (not_calm_of_refuses hm.leads h).elim

/-- A semicolon in the place of a part. -/
theorem sealed_semi (ha : Calm true p s) (hs : ∀ n, s ≠ .take n)
    (hp : p.perform s = (p, .ok [.take 1])) (hm : SealsAll [.take 1] p q)
    (hv : p.lookahead.atMark .semi = true) : Sealed [s] p q := by
  obtain ⟨q, ⟨hrun, _⟩, rfl⟩ := hm
  have htake : p.perform (.take 1) = (p.take, .ok []) := rfl
  obtain rfl := hrun.single htake
  refine .ofMore ha hs hp ?_
  cases hrun with
  | perform hta _ _ _ =>
    refine sealed_take hta.calm ?_ rfl (beq_iff_eq.1 hv) htake
    rintro n ⟨⟩
    rfl

theorem sealed_untilBrace (v : Lookahead) {item again : Step} (h : again.sealed = true) :
    sealsAtEnd (untilBrace v item again) = true := by
  unfold untilBrace
  repeat' split
  · rfl
  · simp [sealsAtEnd, h]
  · simp [sealsAtEnd, h]

theorem sealed_statement (v : Lookahead) :
    sealsAtEnd (StmtPart.statement.expand v) = true ∨
      (StmtPart.statement.expand v).any Step.refuses = true := by
  simp only [StmtPart.expand, statementSteps, dmlSteps]
  repeat' split
  all_goals first
    | exact .inl rfl
    | exact .inr rfl

/-- The rest of a try goes on with a handler, so it reads something. -/
theorem sealed_handlers (ha : Calm true p (.stmt .handlers))
    (hm : SealsAll (StmtPart.handlers.expand p.lookahead) p q) : Sealed [.stmt .handlers] p q := by
  by_cases hv : (p.lookahead.atKeyword .catchKw || p.lookahead.atKeyword .finallyKw) = true
  · have hexp : StmtPart.handlers.expand p.lookahead = [.stmt .moreHandlers] := by
      simp only [StmtPart.expand]
      rw [if_pos hv]
    rw [hexp] at hm
    refine .ofMore ha (by simp) (by rw [perform, hexp]) ?_
    obtain ⟨q, ⟨_, hlaw⟩, rfl⟩ := hm
    rcases hlaw.trails rfl with hr | hs
    · cases hr.inside with
      | perform hi _ _ _ =>
        rcases hi.place with ⟨hlt, _⟩ | ⟨_, _, hdone⟩
        · exact absurd hlt (Nat.lt_irrefl _)
        · simp only [perform, StmtPart.expand] at hdone
          split at hdone
          · cases hdone
          · split at hdone
            · cases hdone
            · rename_i hc hf
              exact absurd hv (by simp [hc, hf])
    · exact hs
  · refine sealed_part ha (by simp) rfl hm (.inr ?_)
    simp only [StmtPart.expand]
    rw [if_neg hv]
    rfl

theorem sealed_stmt (part : StmtPart) (ha : Calm true p (.stmt part))
    (hm : SealsAll (part.expand p.lookahead) p q) (hs : (Step.stmt part).sealed = true) :
    Sealed [.stmt part] p q := by
  cases part with
  | statement => exact sealed_part ha (by simp) rfl hm (sealed_statement _)
  | handlers => exact sealed_handlers ha hm
  | blockStatements => exact sealed_part ha (by simp) rfl hm (.inl (sealed_untilBrace _ rfl))
  | block => exact sealed_part ha (by simp) rfl hm (.inl rfl)
  | loopBody =>
    by_cases hv : p.lookahead.atMark .semi = true
    · have hexp : StmtPart.loopBody.expand p.lookahead = [.take 1] := by
        simp only [StmtPart.expand]
        rw [if_pos hv]
      rw [hexp] at hm
      exact sealed_semi ha (by simp) (by rw [perform, hexp]) hm hv
    · refine sealed_part ha (by simp) rfl hm (.inl ?_)
      simp only [StmtPart.expand]
      rw [if_neg hv]
      rfl
  | whenClauses | moreWhenClauses =>
    refine sealed_part ha (by simp) rfl hm (.inl ?_)
    simp only [StmtPart.expand]
    split <;> rfl
  | _ => cases hs

/-- What may go on a statement is left out, or ends as a statement does. -/
theorem trails_stmt (part : StmtPart) (ha : Calm true p (.stmt part))
    (hm : SealsAll (part.expand p.lookahead) p q) (ht : (Step.stmt part).trails = true) :
    Rests (.stmt part) p q ∨ Sealed [.stmt part] p q := by
  by_cases hnil : part.expand p.lookahead = []
  · rw [hnil] at hm
    cases hm
    exact .inl (rests_of_done ha ht (by rw [perform, hnil]) rfl)
  · refine .inr (sealed_part ha (by simp) rfl hm (.inl ?_))
    cases part with
    | elseBranch | moreHandlers =>
      simp only [StmtPart.expand] at hnil ⊢
      repeat' split
      all_goals first
        | rfl
        | simp_all
    | _ => cases ht

theorem sealed_decl (part : DeclPart) (ha : Calm true p (.decl part))
    (hm : SealsAll (part.expand p.lookahead) p q) (hs : (Step.decl part).sealed = true) :
    Sealed [.decl part] p q := by
  cases part with
  | accessorBody =>
    by_cases hv : p.lookahead.atMark .semi = true
    · have hexp : DeclPart.accessorBody.expand p.lookahead = [.take 1] := by
        simp only [DeclPart.expand]
        rw [if_pos hv]
      rw [hexp] at hm
      exact sealed_semi ha (by simp) (by rw [perform, hexp]) hm hv
    · refine sealed_part ha (by simp) rfl hm (.inl ?_)
      simp only [DeclPart.expand]
      rw [if_neg hv]
      rfl
  | classMembers | interfaceMembers =>
    exact sealed_part ha (by simp) rfl hm (.inl (sealed_untilBrace _ rfl))
  | blockMember | declaration | declaredType | member | method | methodBody | field | property
  | accessors | accessor | accessorKind | classBody | classMember | interfaceMethod
  | enumConstants =>
    refine sealed_part ha (by simp) rfl hm ?_
    simp only [DeclPart.expand, memberSteps, classMemberSteps]
    repeat' split
    all_goals first
      | exact .inl rfl
      | exact .inr rfl
  | _ => cases hs

/-- Every step keeps to the law when the steps that it leads to do. -/
theorem seals_perform (ha : Tame p s) (h : p.perform s = (p', .ok more))
    (hm : SealsAll more p' q) : Seals s p q := by
  have hnever : s.sealed = false → s.trails = false → Seals s p q := fun hs ht =>
    ⟨fun h => absurd h (by simp [hs]), fun h => absurd h (by simp [ht])⟩
  cases s with
  | finish =>
    cases h
    cases hm
    exact ⟨by rintro ⟨⟩, fun _ => .inl (rests_of_done ha.calm rfl rfl rfl)⟩
  | progress since =>
    have hp : p.position ≠ since := (ha.calm rfl).1
    have hperf := h
    rw [perform, if_neg hp] at h
    cases h
    cases hm
    exact ⟨by rintro ⟨⟩, fun _ => .inl (rests_of_done ha.calm rfl hperf rfl)⟩
  | expect e =>
    refine ⟨fun hs => ?_, by rintro ⟨⟩⟩
    obtain ⟨he, rfl, rfl⟩ := expect_calm ha.calm rfl h
    cases hm
    cases e with
    | kind k =>
      cases k with
      | mark m => exact sealed_take ha.calm (by simp) hs (beq_iff_eq.1 he) h
      | _ => cases hs
    | _ => cases hs
  | expectThen e next =>
    refine ⟨fun hs => ?_, by rintro ⟨⟩⟩
    obtain ⟨_, _, rfl⟩ := expect_calm ha.calm rfl h
    have hn : next.sealed = true := hs
    exact .ofMore ha.calm (by simp) h (sealed_all hm (by simp [sealsAtEnd, hn]))
  | stmt part =>
    cases h
    exact ⟨sealed_stmt part ha.calm hm, trails_stmt part ha.calm hm⟩
  | decl part =>
    cases h
    exact ⟨sealed_decl part ha.calm hm, by rintro ⟨⟩⟩
  | _ => exact hnever rfl rfl

/-- A calm run keeps to the law of sealed steps. -/
theorem sealsAll {ss : List Step} (h : Leads Tame ss p q) : SealsAll ss p q :=
  h.chain_of_allowed fun ha hp _ hm => seals_perform ha hp hm

/-- A calm run of a sealed step depends on nothing behind its last token. -/
theorem sealed_of_tame (h : Leads Tame [s] p q) (hs : s.sealed = true) : Sealed [s] p q :=
  sealed_all (sealsAll h) (by simp [sealsAtEnd, hs])

end Law

end Parser

end ApexSyntax
