-- Trees belong to the grammar. On every text the nodes of expressions have the
-- operands that their levels allow, and on a text without an error the nodes of
-- statements are derivations. Both follow from the law of growth of all steps.
import ApexSyntax.Proofs.Parser.ExpressionGrowth
import ApexSyntax.Proofs.Parser.Silence
import ApexSyntax.Proofs.Parser.StatementGrowth

namespace ApexSyntax.Parser

section Law

variable {calm : Bool} {p p' q : Parser} {s : Step} {more : List Step} {fs gs gs' : List Symbol}

/-! ## Parts -/

theorem grows_typ (part : TypePart) (h : GrowsAll calm (part.expand p.lookahead) p q) :
    Grows calm (.typ part) p q := by
  intro _
  cases part with
  | type =>
    exact adds_freeNode [.typ .name, .typ .dottedNames, .typ .dimensions] rfl rfl rfl h
  | _ =>
    refine adds_of_free (closes_typ _ _) ?_ h
    simp only [TypePart.expand]
    repeat' split
    all_goals rfl

/-- The values of a collection stand behind the trees that were there before. -/
theorem adds_initializer (h : GrowsAll calm (initializerSteps p.tree.mark) p q) :
    Adds calm [.anything] [.anything] p q := by
  obtain ⟨p', ⟨_, h1⟩, q', ⟨_, h2⟩, rfl⟩ := h
  obtain ⟨ts, hp', _, _, ht⟩ := adds_of_grows rfl rfl h1
  obtain ⟨ts', hq, ht'⟩ := h2 p.tree ts rfl hp' ht
  exact .ofTrees hq ht'

theorem grows_expr (part : ExprPart)
    (h : GrowsAll calm (part.expand p.lookahead p.tree.mark) p q) :
    Grows calm (.expr part) p q := by
  cases part with
  | expression => exact fun _ => adds_expression h
  | assignment m => exact grows_assignment h
  | conditional => exact fun _ => adds_conditional h
  | alternatives m => exact grows_alternatives h
  | binary level => exact fun _ => adds_binary h
  | operators level m => exact grows_operators h
  | unary => exact fun _ => adds_unary h
  | operand => exact fun _ => adds_operand h
  | suffixes m => exact grows_suffixes h
  | primary => exact fun _ => adds_primary h
  | initializerValues m => exact grows_initializerValues h
  | initializerRest m => exact grows_initializerRest h
  | list => exact fun _ => adds_all rfl h
  | moreExpressions =>
    intro _
    simp only [ExprPart.expand] at h
    split at h
    · rename_i hv
      have hmore : ∀ ts, Derives (p.lookahead.symbols 1 ++ [Symbol.anyExpression,
          .many [.mark .comma, .anyExpression]]) ts → Derives ExprPart.moreExpressions.symbols ts :=
        fun ts hd => .again (hd.first hv)
      exact (adds_cons rfl h).mono hmore hmore
    · cases h
      exact (Adds.nothing rfl).mono (fun _ hd => .done hd) (fun _ hd => .done hd)
  | literal =>
    intro _
    simp only [ExprPart.expand] at h
    split at h <;> exact adds_of_free rfl rfl h
  | creatorForm =>
    intro _
    simp only [ExprPart.expand] at h
    repeat' split at h
    · exact adds_of_free rfl rfl h
    · exact adds_of_free rfl rfl h
    · exact adds_initializer h
    · exact adds_of_free rfl rfl h
  | arrayValues =>
    intro _
    simp only [ExprPart.expand] at h
    split at h
    · exact adds_initializer h
    · exact adds_of_free rfl rfl h
  | _ =>
    intro _
    refine adds_of_free ?_ ?_ h
    · exact closes_expr _ _ _ rfl (fun he => by cases he) (fun he => by cases he)
    · simp only [ExprPart.expand]
      repeat' split
      all_goals rfl

theorem grows_soql (part : QueryPart) (h : GrowsAll calm (part.expand p.lookahead) p q) :
    Grows calm (.soql part) p q := by
  have hfree : (part.expand p.lookahead).all Step.opensFree = true := by
    cases part
    all_goals
      simp only [QueryPart.expand, clause, selectEntrySteps, valueSteps]
      repeat' split
    all_goals rfl
  cases part with
  | query | search => exact fun _ => adds_of_free rfl hfree h
  | _ => exact fun _ => adds_of_free (closes_soql _ _ rfl) hfree h

theorem grows_decl (part : DeclPart) (h : GrowsAll calm (part.expand p.lookahead) p q) :
    Grows calm (.decl part) p q := by
  cases part with
  | modifiers => exact fun _ => adds_modifiers h
  | «variables» => exact fun _ => adds_steps rfl h fun _ => id
  | «variable» =>
    exact fun _ => (adds_freeNode [.expect .identifier, .decl .variableValue] rfl rfl rfl h).loosen
      fun _ => id
  | moreVariables => exact fun _ => adds_moreVariables h
  | qualifiedName =>
    exact fun _ => (adds_freeNode [.expect .word, .soql .dottedWords] rfl rfl rfl h).loosen
      fun _ => id
  | compilationUnit | triggerUnit | anonymousUnit => exact fun _ => adds_of_free rfl rfl h
  | blockMember r =>
    intro hr
    refine adds_of_free (closes_decl _ _ rfl) ?_ h
    simp only [DeclPart.expand]
    split <;> simp only [List.cons_append, List.nil_append, List.all_cons, List.all_nil,
      Bool.and_true] <;> exact Bool.and_eq_true_iff.2 ⟨hr, rfl⟩
  | _ =>
    intro _
    refine adds_of_free (closes_decl _ _ rfl) ?_ h
    simp only [DeclPart.expand, untilBrace, memberSteps, classMemberSteps, annotationValueSteps]
    repeat' split
    all_goals rfl

/-! ## All steps -/

/-- What is added on a run that is not calm may be anything. -/
theorem Adds.ofNotCalm (h : Adds calm fs gs p q) (hc : calm ≠ true) :
    Adds calm [.anything] gs' p q := by
  obtain ⟨ts, hq, _, _, ht⟩ := h
  exact ⟨ts, hq, .anyTrees ts, fun h => absurd h hc, ht⟩

theorem adds_skip (p : Parser) : Adds calm [.anything] [.anything] p p.skip :=
  .ofTrees rfl (allFit_singleton (.skipped p.current))

/-- A run that reports something is not calm. -/
theorem ne_true_of_report {m : String} (ha : Calm calm p s) (h : p.perform s = (p', .ok more))
    (hp : p' = (p.report m).1) : calm ≠ true := by
  intro hc
  have hr := (ha hc).2
  rw [h, hp, recovering_report] at hr
  cases hr

/-- In a calm run an expected token is there. -/
theorem expect_calm {e : Expected} {next : List Step} (ha : Calm true p s)
    (hp : p.perform s = p.expect e next) (h : p.perform s = (p', .ok more)) :
    e.accepts p.current = true ∧ p' = p.take ∧ more = next := by
  rcases expect_ok (hp ▸ h) with h1 | ⟨_, _, ⟨m, hr⟩, _⟩ | ⟨⟨m, hr⟩, _⟩
  · exact h1
  · exact absurd rfl (ne_true_of_report ha h hr)
  · exact absurd rfl (ne_true_of_report ha h hr)

/-- An expected token is added, or the run is not calm. -/
theorem adds_expected {e : Expected} {next : List Step} (ha : Calm calm p s)
    (hp : p.perform s = p.expect e next) (h : p.perform s = (p', .ok more))
    (hnext : adding next = true) (hm : GrowsAll calm more p' q) :
    Adds calm [.anything] (.expected e :: next.flatMap Step.calm) p q := by
  rcases expect_ok (hp ▸ h) with ⟨he, rfl, rfl⟩ | ⟨_, _, ⟨m, hr⟩, rfl⟩ | ⟨⟨m, hr⟩, rfl⟩
  · exact ((adds_take he).append (adds_all hnext hm)).loosen fun _ => id
  · have hskip : adding (.skip :: .take 1 :: next) = true := hnext
    have htree : p'.tree = p.tree := by rw [hr, tree_report]
    obtain ⟨ts, hq, hrest⟩ := adds_all hskip hm
    exact Adds.ofNotCalm ⟨ts, htree ▸ hq, hrest⟩ (ne_true_of_report ha h hr)
  · cases hm
    have htree : p'.tree = p.tree := by rw [hr, tree_report]
    exact Adds.ofNotCalm (.nothing htree) (ne_true_of_report ha h hr)

/-- Every step grows the tree by the law when the steps that it leads to do. -/
theorem grows_perform (ha : Calm calm p s) (h : p.perform s = (p', .ok more))
    (hm : GrowsAll calm more p' q) : Grows calm s p q := by
  cases s with
  | start _ | wrap _ _ | finish =>
    cases h
    cases hm
    exact rfl
  | take n =>
    cases h
    cases hm
    exact fun _ => adds_takeMany p n
  | takeIf m =>
    cases h
    cases hm
    intro _
    split
    · rename_i hv
      exact (adds_take hv).loosen fun _ hd => .use hd
    · exact (Adds.nothing rfl).loosen fun _ hd => .leave hd
  | skip =>
    cases h
    cases hm
    exact fun _ => adds_skip p
  | progress since =>
    intro _
    by_cases hp : p.position = since
    · have hc : calm ≠ true := fun hc => (ha hc).1 hp
      rw [perform, if_pos hp] at h
      cases h
      cases hm
      exact (adds_skip p).ofNotCalm hc
    · rw [perform, if_neg hp] at h
      cases h
      cases hm
      exact (Adds.nothing rfl).loosen fun _ => id
  | expect e => exact fun _ => adds_expected ha rfl h rfl hm
  | expectThen e next =>
    have hadds : adding [next] = true → Adds calm [.anything]
        (.expected e :: next.calm) p q := by
      intro hnext
      have hall := adds_expected ha rfl h hnext hm
      rwa [List.flatMap_cons, List.flatMap_nil, List.append_nil] at hall
    unfold Grows Step.shape
    by_cases hn : next.shape.adds = true
    · rw [if_pos hn]
      intro hf
      have hopen : next.opensFree = true := hf
      exact hadds (by simp [adding, hn, hopen])
    · rw [if_neg hn]
      trivial
  | complain c =>
    obtain ⟨hr, rfl⟩ := reportThen_ok h
    cases hm
    have htree : p'.tree = p.tree := by rw [hr, tree_report]
    exact fun _ => Adds.ofNotCalm (.nothing htree) (ne_true_of_report ha h hr)
  | endOfText =>
    intro _
    simp only [perform] at h
    split at h
    · cases h
      cases hm
      exact .ofTrees rfl (allFit_singleton (.token p.current))
    · obtain ⟨rfl, rfl⟩ := reportThen_ok h
      obtain ⟨ts, hq, _, _, ht⟩ := adds_all rfl hm
      exact .ofTrees (by rw [hq, tree_report]) ht
  | skipRest =>
    intro _
    simp only [perform] at h
    split at h
    · cases h
      cases hm
      exact .ofTrees rfl (fun _ ht => absurd ht List.not_mem_nil)
    · cases h
      exact ((adds_skip p).append (adds_all rfl hm)).mono
        (fun ts _ => .anyTrees ts) (fun ts _ => .anyTrees ts)
  | typ part => cases h; exact grows_typ part hm
  | expr part => cases h; exact grows_expr part hm
  | soql part => cases h; exact grows_soql part hm
  | stmt part =>
    cases h
    cases part <;> exact fun _ => adds_stmt _ hm
  | decl part => cases h; exact grows_decl part hm

/-- A run grows the tree by the law. -/
theorem growsAll {ss : List Step} (h : Leads (Calm calm) ss p q) : GrowsAll calm ss p q :=
  h.chain_of_allowed fun ha hp _ hm => grows_perform ha hp hm

/-! ## Calls -/

theorem Leads.mono {allowed allowed' : Parser → Step → Prop} {ss : List Step}
    (h : Leads allowed ss p q) (hs : ∀ p s, allowed p s → allowed' p s) :
    Leads allowed' ss p q := by
  induction h with
  | done p => exact .done p
  | perform ha hp _ _ ih1 ih2 => exact .perform (hs _ _ ha) hp ih1 ih2

/-- A guarded run that reports nothing is calm. -/
theorem calm_of_guarded {ss : List Step} (h : Guarded ss p q) (hr : p.recovering = false)
    (he : q.errorCount = p.errorCount) : Leads (Calm true) ss p q := by
  induction h with
  | done p => exact .done p
  | @perform s more rest p p' q r ha hp hm hrest ih1 ih2 =>
    have hstep : Silent p p' := by
      refine silent_kept.perform hp fun hskip => ⟨Nat.le_refl _, fun hn => ?_⟩
      rw [ha hskip] at hn
      cases hn
    have hmore := silent_of_guarded hm
    have h1 := hstep.errorCount_le
    have h2 := hmore.errorCount_le
    have h3 := (silent_of_guarded hrest).errorCount_le
    have hr' := (hstep.keeps hr (by omega)).1
    have hq := (hmore.keeps hr' (by omega)).1
    refine .perform (fun _ => ⟨fun hskip => ?_, ?_⟩) hp (ih1 hr' (by omega)) (ih2 hq (by omega))
    · rw [ha hskip] at hr
      cases hr
    · rw [hp]
      exact hr'

/-- The tree of a call is what its entry adds. -/
theorem everywhere_of_call {entry : Entry} {tree : Tree} {r : Parser}
    (hc : LosslessCall p entry q tree) (hrun : p.run entry = (r, .finished))
    (h : Leads (Calm calm) [entry.step] p.fresh r) : tree.Everywhere (Fits calm) := by
  have hentry : entry.step.shape.adds = true ∧ entry.step.opensFree = true := by
    cases entry <;> exact ⟨rfl, rfl⟩
  obtain ⟨q', ⟨_, hg⟩, rfl⟩ := growsAll h
  obtain ⟨ts, hq, _, _, ht⟩ := adds_of_grows hentry.1 hentry.2 hg
  have hroot := hc.oneRoot
  have htree : (p.run entry).1.tree = ⟨ts.toArray, []⟩ := by
    rw [hrun, hq]
    exact (Builder.addAll_ground #[] ts).trans (by simp)
  rw [htree, Builder.mk.injEq] at hroot
  have hts : ts = [tree] := congrArg Array.toList hroot.1
  exact ht tree (by simp [hts])

/-- Every expression is in canonical form by its level, on every text: the tree of
a call has only nodes whose children are what the production of their rule asks
for. Without a throwing listener there is such a tree. -/
theorem expressions_canonical (p : Parser) (entry : Entry) :
    (Listener.stopsAt p.listeners = false → ∃ tree, (p.parse entry).2 = .ok tree) ∧
    ∀ tree, (p.parse entry).2 = .ok tree → tree.Everywhere DerivesExpression := by
  constructor
  · intro hl
    obtain ⟨q, tree, hc, _⟩ := exists_call hl entry
    exact ⟨tree, by rw [hc.returns]⟩
  · intro tree htree
    rcases run_ends p entry with ⟨r, hrun⟩ | ⟨r, e, hthrown, _⟩
    · obtain ⟨tree', hc, _⟩ := exists_call_of_finished hrun
      rw [hc.returns] at htree
      cases htree
      have hlead : Leads (Calm false) [entry.step] p.fresh r :=
        (leads_of_runWithin hrun).mono fun _ _ _ hc => absurd hc Bool.false_ne_true
      exact (everywhere_of_call hc hrun hlead).mono fun _ _ => And.left
    · rw [parse_of_thrown (by rw [hthrown])] at htree
      cases htree

theorem expressions_canonical_incomplete :
    ∃ s tree, TokenStream.ofString .folded "x = a * b + c ? d" = .ok s ∧
      ((ofStream s).parse .expression).1.errorCount = 1 ∧
      ((ofStream s).parse .expression).2 = .ok tree ∧
      (tree.findAll .condExpression).map (fun t => t.nodes.map Tree.rule?) =
        [[some .arth2Expression, some .primaryExpression, some .primaryExpression]] ∧
      tree.Everywhere DerivesExpression := by
  obtain ⟨s, hs⟩ := TokenStream.ofString_ok .folded "x = a * b + c ? d"
  obtain ⟨hexists, hall⟩ := expressions_canonical (ofStream s) .expression
  obtain ⟨tree, ht⟩ := hexists rfl
  have hparse : (TokenStream.ofString .folded "x = a * b + c ? d").toOption.map (fun s =>
      (((ofStream s).parse .expression).1.errorCount,
        ((ofStream s).parse .expression).2.toOption.map fun tree =>
          (tree.findAll .condExpression).map fun t => t.nodes.map Tree.rule?)) =
      some (1, some [[some .arth2Expression, some .primaryExpression, some .primaryExpression]]) := by
    decide +kernel
  rw [hs] at hparse
  obtain ⟨he, hcond⟩ := Prod.mk.inj (Option.some.inj hparse)
  rw [ht] at hcond
  exact ⟨s, tree, hs, he, ht, Option.some.inj hcond, hall tree ht⟩

/-- What is accepted is a derivation. A call that reports no error returns a tree in
which every node of a statement has the children that its production allows. -/
theorem statements_derived (p : Parser) (entry : Entry)
    (he : (p.parse entry).1.errorCount = p.errorCount) :
    ∃ tree, (p.parse entry).2 = .ok tree ∧ tree.Everywhere DerivesStatement := by
  rw [errorCount_parse] at he
  rcases run_ends p entry with ⟨r, hrun⟩ | ⟨r, e, hthrown, _⟩
  · obtain ⟨tree, hc, _⟩ := exists_call_of_finished hrun
    rw [hrun] at he
    have hlead := calm_of_guarded (guarded_entry (leads_of_runWithin hrun)) rfl he
    exact ⟨tree, by rw [hc.returns],
      (everywhere_of_call hc hrun hlead).mono fun _ _ hf => hf.2 rfl⟩
  · have hlt : p.fresh.errorCount < r.errorCount := errorCount_lt_of_thrown hthrown
    rw [hthrown] at he
    exact absurd he (Nat.ne_of_gt hlt)

theorem statements_derived_conditional :
    ∃ s tree, TokenStream.ofString .folded "if (a) return b; else { ; }" = .ok s ∧
      ((ofStream s).parse .statement).1.errorCount = 0 ∧
      ((ofStream s).parse .statement).2 = .ok tree ∧
      (tree.findAll .ifStatement).length = 1 ∧ tree.Everywhere DerivesStatement := by
  obtain ⟨s, hs⟩ := TokenStream.ofString_ok .folded "if (a) return b; else { ; }"
  have hparse : (TokenStream.ofString .folded "if (a) return b; else { ; }").toOption.map (fun s =>
      (((ofStream s).parse .statement).1.errorCount,
        ((ofStream s).parse .statement).2.toOption.map fun tree =>
          (tree.findAll .ifStatement).length)) = some (0, some 1) := by
    decide +kernel
  rw [hs] at hparse
  obtain ⟨he, hif⟩ := Prod.mk.inj (Option.some.inj hparse)
  obtain ⟨tree, ht, hall⟩ := statements_derived (ofStream s) .statement he
  rw [ht] at hif
  exact ⟨s, tree, hs, he, ht, Option.some.inj hif, hall⟩

end Law

end ApexSyntax.Parser
