-- The law of growth for the parts of statements. On a calm run each expected token
-- is there, so the children of a node are those that its production asks for.
import ApexSyntax.Proofs.Parser.Growth

namespace ApexSyntax.Parser

section Forms

variable {calm : Bool} {p q : Parser} {s : Step} {ss : List Step} {r : Rule} {gs : List Symbol}

theorem adds_nothing (h : GrowsAll calm [] p q) (hd : Derives gs []) :
    Adds calm [.anything] gs p q := by
  cases h
  exact (Adds.nothing rfl).loosen fun ts ht => by cases ht; exact hd

/-- Some steps add what symbols derive, on a calm run. -/
theorem adds_steps (hs : adding (s :: ss) = true) (h : GrowsAll calm (s :: ss) p q)
    (hd : ∀ ts, Derives (s.calmAt p.lookahead ++ ss.flatMap Step.calm) ts → Derives gs ts) :
    Adds calm [.anything] gs p q :=
  (adds_cons hs h).loosen hd

/-- The node of a production is added when what is inside of it adds its symbols. -/
theorem adds_filled (he : r.expressionProduction? = none)
    (hr : r.statementProduction? = some gs)
    (h : GrowsAll calm (.start r :: ss ++ [Step.finish]) p q)
    (hbody : ∀ p' q', p'.lookahead = p.lookahead → GrowsAll calm ss p' q' →
      Adds calm [.anything] gs p' q') :
    Adds calm [.anything] [.node r] p q :=
  (adds_node h hbody fun _ _ hg => fits_statement he hr hg).loosen fun _ => id

theorem adds_production (s : Step) (ss : List Step) (hs : adding (s :: ss) = true)
    (he : r.expressionProduction? = none) (hr : r.statementProduction? = some gs)
    (h : GrowsAll calm (.start r :: (s :: ss) ++ [Step.finish]) p q)
    (hd : ∀ ts, Derives (s.calmAt p.lookahead ++ ss.flatMap Step.calm) ts → Derives gs ts) :
    Adds calm [.anything] [.node r] p q :=
  adds_filled he hr h fun _ _ hp' hb => adds_steps hs hb (hp' ▸ hd)

/-- A production that starts with the keyword that comes next. -/
theorem adds_keyword {k : Keyword} (ss : List Step) (hv : p.lookahead.kind 0 = .keyword k)
    (hs : adding (.take 1 :: ss) = true) (he : r.expressionProduction? = none)
    (hr : r.statementProduction? = some (.keyword k :: ss.flatMap Step.calm))
    (h : GrowsAll calm (.start r :: (.take 1 :: ss) ++ [Step.finish]) p q) :
    Adds calm [.anything] [.node r] p q :=
  adds_production _ _ hs he hr h fun _ hd => hd.first (accepts_of_kind hv)

/-- Nothing is added on a calm run that complains. -/
theorem adds_complaint {c : Complaint} (hs : adding (.complain c :: ss) = true)
    (h : GrowsAll calm (.complain c :: ss) p q) : Adds calm [.anything] gs p q := by
  refine adds_steps hs h fun ts hd => ?_
  cases hd with
  | oneOf ha _ => cases ha

/-- On a calm run an expected token is the current one. -/
theorem accepts_of_calm {e : Expected} (h : Leads (Calm true) [.expect e] p q) :
    e.accepts p.current = true := by
  cases h with
  | perform ha hp _ _ =>
    have hr := (ha rfl).2
    rw [hp] at hr
    rcases expect_ok hp with ⟨he, _⟩ | ⟨_, _, ⟨m, rfl⟩, _⟩ | ⟨⟨m, rfl⟩, _⟩
    · exact he
    · rw [recovering_report] at hr
      cases hr
    · rw [recovering_report] at hr
      cases hr

/-- No closing token is there at the end of a text. -/
theorem adds_atEof {m : Mark} (hv : p.lookahead.kind 0 = .eof)
    (h : GrowsAll calm [.expect (.mark m)] p q) : Adds calm [.anything] gs p q := by
  obtain ⟨ts, hq, _, _, ht⟩ := adds_all rfl h
  obtain ⟨_, ⟨hl, _⟩, rfl⟩ := h
  refine ⟨ts, hq, .anyTrees ts, ?_, ht⟩
  rintro rfl
  have ha : (p.current.kind == .mark m) = true := accepts_of_calm hl
  rw [← kind_lookahead, hv] at ha
  cases ha

end Forms

section Parts

variable {calm : Bool} {p q : Parser}

/-! ## Parts of declarations -/

theorem adds_modifiers (h : GrowsAll calm (DeclPart.modifiers.expand p.lookahead) p q) :
    Adds calm [.anything] DeclPart.modifiers.symbols p q := by
  have hmodifier : ∀ {p' r}, Adds calm [.node r] [.node r] p p' →
      [Symbol.node r] ∈ [[Symbol.node .modifier], [Symbol.node .annotationUse]] →
      GrowsAll calm [.decl .modifiers] p' q → Adds calm [.anything] [modifiersSymbol] p q := by
    intro p' r h1 hr h2
    exact (h1.append (adds_all rfl h2)).loosen fun _ hd => .again (.oneOf hr hd)
  simp only [DeclPart.expand] at h
  split at h
  · obtain ⟨p', h1, h2⟩ := Chain.append_iff.1 h
    have hnode := adds_freeNode [.take 1, .decl .qualifiedName, .decl .annotationArguments]
      rfl rfl rfl h1
    exact hmodifier hnode (by simp) h2
  · split at h
    · exact adds_nothing h (.done .nil)
    · rename_i n _
      have h' : GrowsAll calm
          ([Step.start .modifier, .take (n + 1), .finish] ++ [Step.decl .modifiers]) p q := h
      obtain ⟨p', h1, h2⟩ := Chain.append_iff.1 h'
      exact hmodifier (adds_freeNode [.take (n + 1)] rfl rfl rfl h1) (by simp) h2

theorem adds_moreVariables (h : GrowsAll calm (DeclPart.moreVariables.expand p.lookahead) p q) :
    Adds calm [.anything] DeclPart.moreVariables.symbols p q := by
  simp only [DeclPart.expand] at h
  split at h
  · rename_i hv
    exact adds_steps rfl h fun _ hd => .again (hd.first hv)
  · exact adds_nothing h (.done .nil)

/-! ## Statements -/

theorem adds_expressionStatement (h : GrowsAll calm expressionStatementSteps p q) :
    Adds calm [.anything] [.node .expressionStatement] p q :=
  adds_production (.expr .expression) [.expect (.mark .semi)] rfl rfl rfl h fun _ => id

theorem adds_dml (hv : (p.lookahead.kind 0).isDml = true)
    (h : GrowsAll calm (dmlSteps p.lookahead) p q) :
    Adds calm [.anything] [.node .dmlStatement] p q := by
  unfold dmlSteps at h
  split at h
  · rename_i hu
    refine adds_production (.take 1) [.stmt .accessLevel, .expr .expression,
      .stmt .upsertKey, .expect (.mark .semi)] rfl rfl rfl h fun _ hd => ?_
    exact .oneOf (List.mem_cons_of_mem _ List.mem_cons_self) (hd.first hu)
  · rename_i hu
    refine adds_production (.take 1) [.stmt .accessLevel, .expr .expression,
      .expect (.mark .semi)] rfl rfl rfl h fun _ hd => ?_
    refine .oneOf (List.mem_cons_of_mem _ (List.mem_cons_of_mem _ List.mem_cons_self)) ?_
    have hdml : ∀ {k}, p.lookahead.kind 0 = .keyword k →
        [Symbol.keyword k] ∈ dmlKeywords → Derives (.oneOf dmlKeywords :: _) _ :=
      fun hk hm => .oneOf hm (hd.first (accepts_of_kind hk))
    unfold Kind.isDml at hv
    split at hv
    · exact hdml ‹_› (by simp [dmlKeywords])
    · exact hdml ‹_› (by simp [dmlKeywords])
    · exact hdml ‹_› (by simp [dmlKeywords])
    · exact hdml ‹_› (by simp [dmlKeywords])
    · exact absurd (beq_iff_eq.2 ‹_›) hu
    · cases hv

theorem adds_statement (h : GrowsAll calm (statementSteps p.lookahead) p q) :
    Adds calm [.anything] [.oneOf statementKinds] p q := by
  have hkind : ∀ {gs}, gs ∈ statementKinds → Adds calm [.anything] gs p q →
      Adds calm [.anything] [.oneOf statementKinds] p q := by
    intro gs hr ha
    refine ha.loosen fun _ hd => .oneOf hr ?_
    rwa [List.append_nil]
  unfold statementSteps at h
  split at h
  case h_1 =>
    have ha : Adds calm [.anything] [.node .block] p q := adds_steps rfl h fun _ => id
    exact hkind (by simp [statementKinds]) ha
  case h_2 hv =>
    have ha := adds_keyword [.stmt .parenthesized, .stmt .statement, .stmt .elseBranch]
      hv rfl rfl rfl h
    exact hkind (by simp [statementKinds]) ha
  case h_3 hv =>
    have ha := adds_keyword [.expect (.mark .lParen), .stmt .loopControl,
      .expect (.mark .rParen), .stmt .loopBody] hv rfl rfl rfl h
    exact hkind (by simp [statementKinds]) ha
  case h_4 hv =>
    have ha := adds_keyword [.stmt .parenthesized, .stmt .loopBody] hv rfl rfl rfl h
    exact hkind (by simp [statementKinds]) ha
  case h_5 hv =>
    have ha := adds_keyword [.stmt .block, .expect (.keyword .whileKw), .stmt .parenthesized,
      .expect (.mark .semi)] hv rfl rfl rfl h
    exact hkind (by simp [statementKinds]) ha
  case h_6 hv =>
    have ha := adds_keyword [.stmt .block, .stmt .handlers] hv rfl rfl rfl h
    exact hkind (by simp [statementKinds]) ha
  case h_7 hv =>
    have ha := adds_keyword [.stmt .returnValue, .expect (.mark .semi)] hv rfl rfl rfl h
    exact hkind (by simp [statementKinds]) ha
  case h_8 hv =>
    have ha := adds_keyword [.expr .expression, .expect (.mark .semi)] hv rfl rfl rfl h
    exact hkind (by simp [statementKinds]) ha
  case h_9 hv =>
    have ha := adds_keyword [.expect (.mark .semi)] hv rfl rfl rfl h
    exact hkind (by simp [statementKinds]) ha
  case h_10 hv =>
    have ha := adds_keyword [.expect (.mark .semi)] hv rfl rfl rfl h
    exact hkind (by simp [statementKinds]) ha
  case h_11 hv =>
    have ha := adds_production (.take 1) [.expr .expression, .expr .expression,
      .expect (.mark .semi)] rfl rfl rfl h fun _ hd =>
        .oneOf List.mem_cons_self (hd.first (accepts_of_kind hv))
    exact hkind (by simp [statementKinds]) ha
  case h_12 hv =>
    have ha := adds_keyword [.expect (.mark .lParen), .stmt .runAsUsers,
      .expect (.mark .rParen), .stmt .block] hv rfl rfl rfl h
    exact hkind (by simp [statementKinds]) ha
  case h_13 =>
    split at h
    · rename_i hv
      have ha := adds_production (.take 2) [.expr .expression,
        .expectThen (.mark .lBrace) (.stmt .whenClauses)] rfl rfl rfl h fun _ hd =>
          spells_two (accepts_of_kind hv.1) (accepts_of_kind hv.2) _ _ hd
      exact hkind (by simp [statementKinds]) ha
    · split at h
      · exact hkind (by simp [statementKinds]) (adds_dml ‹_› h)
      · split at h
        · have ha : Adds calm [.anything] [.node .localVariableDeclaration, .mark .semi] p q :=
            adds_steps rfl h fun _ => id
          exact hkind (by simp [statementKinds]) ha
        · split at h
          · exact hkind (by simp [statementKinds]) (adds_expressionStatement h)
          · exact adds_complaint rfl h

theorem adds_blockStatements
    (h : GrowsAll calm (StmtPart.blockStatements.expand p.lookahead) p q) :
    Adds calm [.anything] StmtPart.blockStatements.symbols p q := by
  simp only [StmtPart.expand, untilBrace] at h
  split at h
  · exact adds_steps rfl h fun _ hd => .done hd
  · split at h
    · rename_i hv
      exact adds_steps rfl h fun _ hd => .again (.oneOf List.mem_cons_self (hd.first hv))
    · exact adds_steps rfl h fun _ hd =>
        .again (.oneOf (List.mem_cons_of_mem _ List.mem_cons_self) hd)

/-! ## Cases of a switch -/

theorem adds_whenClauses (h : GrowsAll calm (StmtPart.whenClauses.expand p.lookahead) p q) :
    Adds calm [.anything] StmtPart.whenClauses.symbols p q := by
  simp only [StmtPart.expand] at h
  split at h
  · exact adds_complaint rfl h
  · rename_i hv
    refine adds_steps rfl h fun _ hd => ?_
    simp only [Step.calmAt, if_neg hv] at hd
    exact hd

/-- Behind the first case more of them may come; before it, one must. -/
theorem adds_moreWhenClauses
    (h : GrowsAll calm (StmtPart.moreWhenClauses.expand p.lookahead) p q) :
    Adds calm [.anything] (Step.calmAt p.lookahead (.stmt .moreWhenClauses)) p q := by
  simp only [StmtPart.expand] at h
  simp only [Step.calmAt]
  split at h
  · rename_i hv
    rw [Bool.or_eq_true, beq_iff_eq] at hv
    split
    · exact adds_steps rfl h fun _ => id
    · exact adds_atEof (hv.resolve_left ‹_›) h
  · rename_i hv
    rw [Bool.or_eq_true, not_or] at hv
    rw [if_neg hv.1]
    have h' : GrowsAll calm ([Step.start .whenControl, .expect (.keyword .whenKw), .stmt .whenValue,
      .stmt .block, .finish] ++ [Step.progress p.position, .stmt .moreWhenClauses]) p q := h
    obtain ⟨p', h1, h2⟩ := Chain.append_iff.1 h'
    have hnode := adds_production (.expect (.keyword .whenKw)) [.stmt .whenValue, .stmt .block]
      rfl rfl rfl h1 fun _ => id
    exact (hnode.append (adds_all rfl h2)).loosen fun _ => id

theorem adds_whenValue (h : GrowsAll calm (whenValueSteps p.lookahead) p q) :
    Adds calm [.anything] [.oneOf [[.keyword .elseKw], [.identifier, .identifier],
      Symbol.separated (.node .whenLiteral)]] p q := by
  unfold whenValueSteps at h
  split at h
  · rename_i hv
    exact adds_steps rfl h fun _ hd => .oneOf List.mem_cons_self (hd.first hv)
  · split at h
    · rename_i hv
      rw [Bool.and_eq_true] at hv
      exact adds_steps rfl h fun _ hd =>
        .oneOf (List.mem_cons_of_mem _ List.mem_cons_self) (spells_two hv.1 hv.2 _ _ hd)
    · exact adds_steps rfl h fun _ hd =>
        .oneOf (List.mem_cons_of_mem _ (List.mem_cons_of_mem _ List.mem_cons_self)) hd

theorem adds_whenLiteral (h : GrowsAll calm (StmtPart.whenLiteral.expand p.lookahead) p q) :
    Adds calm [.anything] [.node .whenLiteral] p q := by
  simp only [StmtPart.expand] at h
  split at h
  · rename_i hv
    exact adds_production (.take 1) [.stmt .whenLiteral, .expect (.mark .rParen)] rfl rfl rfl h
      fun _ hd => .oneOf List.mem_cons_self (hd.first hv)
  · exact adds_production (.takeIf .sub) [.stmt .whenAtom] rfl rfl rfl h
      fun _ hd => .oneOf (List.mem_cons_of_mem _ List.mem_cons_self) hd

/-! ## Loops and handlers -/

theorem adds_loopControl (h : GrowsAll calm (loopControlSteps p.lookahead) p q) :
    Adds calm [.anything] [.oneOf [
      [modifiersSymbol, .node .typeRef, .identifier, .mark .colon, .anyExpression],
      [loopStartSymbol, .mark .semi, .optional [.anyExpression], .mark .semi,
        .optional (Symbol.separated .anyExpression)]]] p q := by
  unfold loopControlSteps at h
  split at h
  · exact adds_steps rfl h fun _ hd => .oneOf List.mem_cons_self hd
  · exact adds_steps rfl h fun _ hd => .oneOf (List.mem_cons_of_mem _ List.mem_cons_self) hd

theorem adds_loopStart (h : GrowsAll calm (StmtPart.loopStart.expand p.lookahead) p q) :
    Adds calm [.anything] [loopStartSymbol] p q := by
  simp only [StmtPart.expand] at h
  split at h
  · exact adds_nothing h (.oneOf List.mem_cons_self .nil)
  · split at h
    · exact adds_steps rfl h fun _ hd => .oneOf (List.mem_cons_of_mem _ List.mem_cons_self) hd
    · exact adds_steps rfl h fun _ hd =>
        .oneOf (List.mem_cons_of_mem _ (List.mem_cons_of_mem _ List.mem_cons_self)) hd

/-- Nothing, or a step that adds something more. -/
theorem adds_optional {c : Bool} {s : Step} {item : List Symbol} (hs : adding [s] = true)
    (h : GrowsAll calm (if c = true then [] else [s]) p q)
    (hd : ∀ ts, Derives (s.calmAt p.lookahead) ts → Derives item ts) :
    Adds calm [.anything] [.optional item] p q := by
  split at h
  · exact adds_nothing h (.leave .nil)
  · refine adds_steps hs h fun ts hts => .use ?_
    rw [List.append_nil]
    refine hd ts ?_
    rwa [List.flatMap_nil, List.append_nil] at hts

theorem adds_handlers (h : GrowsAll calm (StmtPart.handlers.expand p.lookahead) p q) :
    Adds calm [.anything] [handlersSymbol] p q := by
  simp only [StmtPart.expand] at h
  split at h
  · rename_i hv
    refine adds_steps rfl h fun _ hd => ?_
    simp only [Step.calmAt, if_pos hv] at hd
    exact hd
  · exact adds_complaint rfl h

/-- Behind the first handler more of them may come; before it, one must. -/
theorem adds_moreHandlers (h : GrowsAll calm (StmtPart.moreHandlers.expand p.lookahead) p q) :
    Adds calm [.anything] (Step.calmAt p.lookahead (.stmt .moreHandlers)) p q := by
  simp only [StmtPart.expand] at h
  simp only [Step.calmAt]
  split at h
  · rename_i hv
    have h' : GrowsAll calm ([Step.start .catchClause, .take 1, .expect (.mark .lParen),
      .decl .modifiers, .typ .type, .expect .identifier, .expect (.mark .rParen), .stmt .block,
      .finish] ++ [Step.stmt .moreHandlers]) p q := h
    obtain ⟨p', h1, h2⟩ := Chain.append_iff.1 h'
    have hnode := adds_keyword [.expect (.mark .lParen), .decl .modifiers, .typ .type,
      .expect .identifier, .expect (.mark .rParen), .stmt .block] (beq_iff_eq.1 hv) rfl rfl rfl h1
    rw [hv, Bool.true_or, if_pos rfl]
    exact (hnode.append (adds_all rfl h2)).loosen fun _ hd => .oneOf List.mem_cons_self hd
  · rename_i hv
    rw [Bool.not_eq_true] at hv
    rw [hv, Bool.false_or]
    split at h
    · rename_i hf
      have hnode := adds_keyword [.stmt .block] (beq_iff_eq.1 hf) rfl rfl rfl h
      rw [if_pos hf]
      exact hnode.loosen fun _ hd => .oneOf (List.mem_cons_of_mem _ List.mem_cons_self) hd
    · rename_i hf
      rw [if_neg hf]
      exact adds_nothing h .nil

theorem adds_accessLevel (h : GrowsAll calm (StmtPart.accessLevel.expand p.lookahead) p q) :
    Adds calm [.anything] [.optional [.node .accessLevel]] p q := by
  simp only [StmtPart.expand] at h
  split at h
  · rename_i hv
    rw [Bool.and_eq_true, Bool.and_eq_true, Bool.or_eq_true] at hv
    have has : (Expected.spelled "as").accepts (p.lookahead.nth 0) = true := hv.1.1
    have hnode := adds_production (.take 2) [] rfl rfl rfl h fun ts hd => by
      cases hd.first has with
      | token h0 h' =>
        refine .token h0 ?_
        rcases hv.1.2 with hw | hw
        · have huser : (Expected.spelled "user").accepts (p.lookahead.nth 1) = true := hw
          exact .oneOf List.mem_cons_self (h'.first huser)
        · have hsystem : (Expected.spelled "system").accepts (p.lookahead.nth 1) = true := hw
          exact .oneOf (List.mem_cons_of_mem _ List.mem_cons_self) (h'.first hsystem)
    exact hnode.loosen fun _ hd => .use hd
  · exact adds_nothing h (.leave .nil)

/-! ## All parts -/

theorem adds_stmt (part : StmtPart) (h : GrowsAll calm (part.expand p.lookahead) p q) :
    Adds calm [.anything] (Step.calmAt p.lookahead (.stmt part)) p q := by
  cases part with
  | block =>
    exact adds_production (.expectThen (.mark .lBrace) (.stmt .blockStatements)) [] rfl rfl rfl h
      fun _ => id
  | blockStatements => exact adds_blockStatements h
  | statement => exact adds_filled rfl rfl h fun _ _ hp' hb => adds_statement (hp' ▸ hb)
  | loopBody =>
    simp only [StmtPart.expand] at h
    split at h
    · rename_i hv
      exact adds_steps rfl h fun _ hd => .oneOf List.mem_cons_self (hd.first hv)
    · exact adds_steps rfl h fun _ hd => .oneOf (List.mem_cons_of_mem _ List.mem_cons_self) hd
  | localVariables =>
    exact adds_production (.decl .modifiers) [.typ .type, .decl .variables] rfl rfl rfl h
      fun _ => id
  | parenthesized =>
    exact adds_production (.expect (.mark .lParen)) [.expr .expression, .expect (.mark .rParen)]
      rfl rfl rfl h fun _ => id
  | elseBranch =>
    simp only [StmtPart.expand] at h
    split at h
    · rename_i hv
      exact adds_steps rfl h fun _ hd => .use (hd.first hv)
    · exact adds_nothing h (.leave .nil)
  | whenClauses => exact adds_whenClauses h
  | moreWhenClauses => exact adds_moreWhenClauses h
  | whenValue => exact adds_filled rfl rfl h fun _ _ hp' hb => adds_whenValue (hp' ▸ hb)
  | whenLiteral => exact adds_whenLiteral h
  | moreWhenLiterals =>
    simp only [StmtPart.expand] at h
    split at h
    · rename_i hv
      exact adds_steps rfl h fun _ hd => .again (hd.first hv)
    · exact adds_nothing h (.done .nil)
  | whenAtom =>
    simp only [StmtPart.expand] at h
    split at h
    · rename_i hv
      exact adds_steps rfl h fun _ hd => hd.first hv
    · exact adds_complaint rfl h
  | loopControl => exact adds_filled rfl rfl h fun _ _ hp' hb => adds_loopControl (hp' ▸ hb)
  | loopStart => exact adds_loopStart h
  | loopCondition | returnValue => exact adds_optional rfl h fun _ => id
  | loopUpdate | runAsUsers => exact adds_optional rfl h fun _ => id
  | handlers => exact adds_handlers h
  | moreHandlers => exact adds_moreHandlers h
  | accessLevel => exact adds_accessLevel h
  | upsertKey => exact adds_optional rfl h fun _ => id

end Parts

end ApexSyntax.Parser
