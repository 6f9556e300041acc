-- Queries whose filter binds an operand of the surrounding language. What is read behind the
-- colon decides how far the query goes: up to its end, or up to the word that was taken as part
-- of the operand.
import ApexSyntax.Proofs.Operands.Casts

namespace ApexSyntax

/-! ## Filters with a bound operand -/

/-- A word that starts no clause. -/
def Token.isLabel (t : Token) : Bool := t.isWord && !("typeof" :: clauseWords).contains t.word

/-- A text starts with one field that is selected where something holds. -/
structure TokenStream.SelectsWhere (s : TokenStream) : Prop where
  select : (s.nth 0).word = "select"
  field : (s.nth 1).isLabel = true
  source : (s.nth 2).word = "from"
  object : (s.nth 3).isLabel = true
  filter : (s.nth 4).word = "where"

/-- A field is compared with what stands behind. -/
structure TokenStream.ComparesAt (s : TokenStream) (i : Nat) : Prop where
  field : (s.nth i).isLabel = true
  equals : (s.nth (i + 1)).kind = .mark .assign

/-- A text selects one field where another is the operand behind a colon, and a third one is a
literal: `select f from o where g = : e and h = 1`. -/
structure TokenStream.IsFilter (s e : TokenStream) : Prop where
  selects : s.SelectsWhere
  bound : s.ComparesAt 5
  colon : (s.nth 7).kind = .mark .colon
  operand : e.LiesIn s 8
  joins : (s.nth (e.visible.size + 8)).word = "and"
  name : (s.nth (e.visible.size + 8)).kind = .identifier
  plain : s.ComparesAt (e.visible.size + 9)
  literal : (s.nth (e.visible.size + 11)).kind.isLiteral = true
  size : s.visible.size = e.visible.size + 12

namespace TokenStream

variable {s e : TokenStream} {i : Nat} {m : Mark}

theorem selectsWhere_iff : s.SelectsWhere ↔ (s.nth 0).word = "select" ∧ (s.nth 1).isLabel = true ∧
    (s.nth 2).word = "from" ∧ (s.nth 3).isLabel = true ∧ (s.nth 4).word = "where" :=
  ⟨fun ⟨h₁, h₂, h₃, h₄, h₅⟩ => ⟨h₁, h₂, h₃, h₄, h₅⟩,
    fun ⟨h₁, h₂, h₃, h₄, h₅⟩ => ⟨h₁, h₂, h₃, h₄, h₅⟩⟩

instance (s : TokenStream) : Decidable s.SelectsWhere := decidable_of_iff _ selectsWhere_iff.symm

theorem comparesAt_iff : s.ComparesAt i ↔
    (s.nth i).isLabel = true ∧ (s.nth (i + 1)).kind = .mark .assign :=
  ⟨fun ⟨h₁, h₂⟩ => ⟨h₁, h₂⟩, fun ⟨h₁, h₂⟩ => ⟨h₁, h₂⟩⟩

instance (s : TokenStream) (i : Nat) : Decidable (s.ComparesAt i) :=
  decidable_of_iff _ comparesAt_iff.symm

theorem isFilter_iff : s.IsFilter e ↔ s.SelectsWhere ∧ s.ComparesAt 5 ∧
    (s.nth 7).kind = .mark .colon ∧ e.LiesIn s 8 ∧
    (s.nth (e.visible.size + 8)).word = "and" ∧
    (s.nth (e.visible.size + 8)).kind = .identifier ∧ s.ComparesAt (e.visible.size + 9) ∧
    (s.nth (e.visible.size + 11)).kind.isLiteral = true ∧
    s.visible.size = e.visible.size + 12 :=
  ⟨fun ⟨h₁, h₂, h₃, h₄, h₅, h₆, h₇, h₈, h₉⟩ => ⟨h₁, h₂, h₃, h₄, h₅, h₆, h₇, h₈, h₉⟩,
    fun ⟨h₁, h₂, h₃, h₄, h₅, h₆, h₇, h₈, h₉⟩ => ⟨h₁, h₂, h₃, h₄, h₅, h₆, h₇, h₈, h₉⟩⟩

instance (s e : TokenStream) : Decidable (s.IsFilter e) := decidable_of_iff _ isFilter_iff.symm

/-- A token that has a word is a name or a keyword. -/
theorem Spelled.isWord_kind (h : s.Spelled) (hw : (s.nth i).word ≠ "") :
    (s.nth i).kind.isWord = true :=
  Classical.byContradiction fun hk => hw (h.word_nth (Bool.eq_false_iff.2 hk))

theorem Spelled.ne_mark (h : s.Spelled) (hw : (s.nth i).word ≠ "") :
    (s.nth i).kind ≠ .mark m := by
  intro hk
  have hword := h.isWord_kind hw
  rw [hk] at hword
  cases hword

theorem Spelled.ne_eof (h : s.Spelled) (hw : (s.nth i).word ≠ "") : (s.nth i).kind ≠ .eof := by
  intro hk
  have hword := h.isWord_kind hw
  rw [hk] at hword
  cases hword

end TokenStream

theorem Token.word_of_isLabel {t : Token} (h : t.isLabel = true) :
    t.word ≠ "" ∧ t.word ≠ "typeof" ∧ t.word ∉ clauseWords := by
  simpa [isLabel, isWord, not_or] using h

/-- A field that is compared with a value. -/
def Tree.comparison (field equals : Token) (value : List Tree) : Tree :=
  .node .fieldExpression [.node .fieldName [.token field], .token equals, .node .soqlValue value]

/-- The tree of such a query, around the tree of the operand. -/
def TokenStream.filterTree (s e : TokenStream) (operand : Tree) : Tree :=
  .node .query [.token (s.nth 0),
    .node .selectList [.node .selectEntry [.node .fieldName [.token (s.nth 1)]]],
    .node .fromClause [.token (s.nth 2), .node .fieldName [.token (s.nth 3)]],
    .node .whereClause [.token (s.nth 4), .node .logicalExpression [
      .comparison (s.nth 5) (s.nth 6) [.node .boundExpression [.token (s.nth 7), operand]],
      .token (s.nth (e.visible.size + 8)),
      .comparison (s.nth (e.visible.size + 9)) (s.nth (e.visible.size + 10))
        [.token (s.nth (e.visible.size + 11))]]]]

namespace Parser

namespace ReadsAt

/-! ## Parts of queries -/

section Queries

variable {s : TokenStream} {i j : Nat} {ss : List Step} {ts : List Tree} {t : Tree}
  {part : QueryPart} {w : String}

theorem query (h : ReadsAt s i (part.expand ⟨s, i⟩) j ts) : ReadsAt s i [.soql part] j ts := by
  refine h.part ?_
  rintro p rfl rfl
  rfl

/-- A part that is not there. -/
theorem absent (h : part.expand ⟨s, i⟩ = []) : ReadsAt s i [.soql part] i [] :=
  query (h ▸ .nothing)

theorem allAbsent {parts : List QueryPart} (h : ∀ part ∈ parts, part.expand ⟨s, i⟩ = []) :
    ReadsAt s i (parts.map .soql) i [] := by
  induction parts with
  | nil => exact nothing
  | cons part parts ih =>
    obtain ⟨hpart, hparts⟩ := List.forall_mem_cons.1 h
    exact (absent hpart).cons (ih hparts)

theorem word (hw : (s.nth i).word = w) (hne : w ≠ "") :
    ReadsAt s i [.expect (.spelled w)] (i + 1) [.token (s.nth i)] :=
  .expect (beq_iff_eq.2 hw) (bne_iff_ne.2 hne)

/-- A name in front of a token that is no dot. -/
theorem fieldName (hw : (s.nth i).isWord = true) (hd : (s.nth (i + 1)).kind ≠ .mark .dot) :
    ReadsAt s i [.soql .fieldName] (i + 1) [.node .fieldName [.token (s.nth i)]] := by
  have hname : ReadsAt s i [.expect .word] (i + 1) [.token (s.nth i)] := .expect hw rfl
  have hnone : ReadsAt s (i + 1) [.soql .dottedWords] (i + 1) [] :=
    absent (by simp [QueryPart.expand, Lookahead.atMark, Lookahead.kind, Lookahead.nth, hd])
  exact query (node (hname.cons hnone))

theorem function (hw : (s.nth i).isWord = true) (hd : (s.nth (i + 1)).kind ≠ .mark .dot)
    (hp : (s.nth (i + 1)).kind ≠ .mark .lParen) :
    ReadsAt s i [.soql .function] (i + 1) [.node .fieldName [.token (s.nth i)]] := by
  refine query ?_
  have hsteps : QueryPart.function.expand ⟨s, i⟩ = [.soql .fieldName] := by
    simp [QueryPart.expand, Lookahead.kind, Lookahead.nth, hp]
  rw [hsteps]
  exact fieldName hw hd

/-- No alias stands in front of a word that goes on with the query. -/
theorem noAlias (hw : (s.nth i).word ∈ clauseWords) : ReadsAt s i [.soql .alias] i [] :=
  absent (by simp [QueryPart.expand, Lookahead.aliasAhead, Lookahead.word, Lookahead.nth, hw])

theorem noNegation (hw : (s.nth i).word ≠ "not") : ReadsAt s i [.soql .negation] i [] :=
  absent (by simp [QueryPart.expand, clause, Lookahead.atWord, Lookahead.word, Lookahead.nth, hw])

/-- A field, compared with what is read behind it. -/
theorem comparison (hs : s.Spelled) (h : s.ComparesAt i)
    (hv : ReadsAt s (i + 2) [.soql .value] j [.node .soqlValue ts]) :
    ReadsAt s i [.soql .negation, .soql .conditionOperand] j
      [.comparison (s.nth i) (s.nth (i + 1)) ts] := by
  obtain ⟨hword, -, hclause⟩ := Token.word_of_isLabel h.field
  have hnot : (s.nth i).word ≠ "not" := fun hn => hclause (by rw [hn]; decide)
  have hfield : ReadsAt s i [.soql .function] (i + 1) [.node .fieldName [.token (s.nth i)]] :=
    function (bne_iff_ne.2 hword) (by rw [h.equals]; decide) (by rw [h.equals]; decide)
  have hequals : ReadsAt s (i + 1) [.soql .comparisonOperator] (i + 2)
      [.token (s.nth (i + 1))] := by
    refine query ?_
    have hsteps : QueryPart.comparisonOperator.expand ⟨s, i + 1⟩ = [.take 1] := by
      simp [QueryPart.expand, Lookahead.kind, Lookahead.nth, h.equals, Kind.comparesFields]
    rw [hsteps]
    exact takeMark h.equals
  have hoperand : ReadsAt s i [.soql .conditionOperand] j
      [.comparison (s.nth i) (s.nth (i + 1)) ts] := by
    refine query ?_
    have hsteps : QueryPart.conditionOperand.expand ⟨s, i⟩ = [.soql .comparison] := by
      have hparen : (s.nth i).kind ≠ .mark .lParen := hs.ne_mark hword
      simp [QueryPart.expand, Lookahead.atMark, Lookahead.kind, Lookahead.nth, hparen]
    rw [hsteps]
    exact query (node (hfield.cons (hequals.cons hv)))
  exact (noNegation hnot).cons hoperand

/-- An operand of the surrounding language behind a colon. -/
theorem bound (hc : (s.nth i).kind = .mark .colon) (h : ReadsAt s (i + 1) [.expr .unary] j [t]) :
    ReadsAt s i [.soql .value] j
      [.node .soqlValue [.node .boundExpression [.token (s.nth i), t]]] := by
  refine query ?_
  have hsteps : QueryPart.value.expand ⟨s, i⟩ = .start .soqlValue :: boundSteps ++ [Step.finish] := by
    simp [QueryPart.expand, valueSteps, Lookahead.atMark, Lookahead.kind, Lookahead.nth, hc]
  rw [hsteps]
  exact node (node ((takeMark hc).cons h))

theorem literal (hl : (s.nth i).kind.isLiteral = true) :
    ReadsAt s i [.soql .value] (i + 1) [.node .soqlValue [.token (s.nth i)]] := by
  have hmark : ∀ m, (s.nth i).kind ≠ .mark m := by
    intro m hk
    rw [hk] at hl
    cases hl
  refine query ?_
  have hsteps : QueryPart.value.expand ⟨s, i⟩ =
      Step.start .soqlValue :: [.take 1] ++ [Step.finish] := by
    simp [QueryPart.expand, valueSteps, Lookahead.atMark, Lookahead.kind, Lookahead.nth, hmark, hl]
  rw [hsteps]
  refine node (take fun hk => ?_)
  rw [hk] at hl
  cases hl

theorem noConditions (hi : (s.nth i).word ∉ clauseWords) :
    ReadsAt s i [.soql .moreConditions] i [] := by
  have hword : ∀ w ∈ clauseWords, (s.nth i).word ≠ w := fun w hw he => hi (he ▸ hw)
  exact absent (by
    simp [QueryPart.expand, Lookahead.atAnyWord, Lookahead.word, Lookahead.nth,
      hword "and" (by decide), hword "or" (by decide)])

/-- In front of a word that starts no clause, and at the end of the text, no clause is there. -/
theorem noClauses (hi : (s.nth i).word ∉ clauseWords) :
    ReadsAt s i [.soql .access, .soql .grouping, .soql .ordering, .soql .limit, .soql .offset,
      .soql .allRows, .soql .usage] i [] := by
  have hword : ∀ w ∈ clauseWords, (s.nth i).word ≠ w := fun w hw he => hi (he ▸ hw)
  have hparts : ∀ part ∈ [QueryPart.access, .grouping, .ordering, .limit, .offset, .allRows,
      .usage], part.expand ⟨s, i⟩ = [] := by
    simp [QueryPart.expand, clause, Lookahead.atWord, Lookahead.atAnyWord, Lookahead.word,
      Lookahead.nth, hword "with" (by decide), hword "group" (by decide),
      hword "order" (by decide), hword "limit" (by decide), hword "offset" (by decide),
      hword "all" (by decide), hword "for" (by decide), hword "update" (by decide)]
  exact allAbsent hparts

/-- The field that is selected, and what it is selected from. -/
theorem selection (h : s.SelectsWhere) (hs : s.Spelled) :
    ReadsAt s 0 [.expect (.spelled "select"), .start .selectList, .soql .selectEntry,
        .soql .moreSelectEntries, .finish, .start .fromClause, .expect (.spelled "from"),
        .soql .source, .soql .moreSources, .finish, .soql .scope] 4
      [.token (s.nth 0),
        .node .selectList [.node .selectEntry [.node .fieldName [.token (s.nth 1)]]],
        .node .fromClause [.token (s.nth 2), .node .fieldName [.token (s.nth 3)]]] := by
  obtain ⟨hword, htypeof, -⟩ := Token.word_of_isLabel h.field
  obtain ⟨hword', -, -⟩ := Token.word_of_isLabel h.object
  have hfrom : (s.nth 2).word ≠ "" := by rw [h.source]; decide
  have hwhere : (s.nth 4).word ≠ "" := by rw [h.filter]; decide
  have hentry : ReadsAt s 1 [.soql .selectEntry] 2
      [.node .selectEntry [.node .fieldName [.token (s.nth 1)]]] := by
    refine query ?_
    have hsteps : QueryPart.selectEntry.expand ⟨s, 1⟩ =
        Step.start .selectEntry :: [.soql .function, .soql .alias] ++ [Step.finish] := by
      simp [QueryPart.expand, selectEntrySteps, Lookahead.atMark, Lookahead.atWord, Lookahead.kind,
        Lookahead.word, Lookahead.nth, hs.ne_mark hword, htypeof]
    rw [hsteps]
    exact node ((function (bne_iff_ne.2 hword) (hs.ne_mark hfrom) (hs.ne_mark hfrom)).cons
      (noAlias (by rw [h.source]; decide)))
  have hentries : ReadsAt s 2 [.soql .moreSelectEntries] 2 [] := absent (by
    simp [QueryPart.expand, Lookahead.atMark, Lookahead.kind, Lookahead.nth, hs.ne_mark hfrom])
  have hsource : ReadsAt s 3 [.soql .source] 4 [.node .fieldName [.token (s.nth 3)]] :=
    query ((fieldName (bne_iff_ne.2 hword') (hs.ne_mark hwhere)).cons
      (noAlias (by rw [h.filter]; decide)))
  have hsources : ReadsAt s 4 [.soql .moreSources] 4 [] := absent (by
    simp [QueryPart.expand, Lookahead.atMark, Lookahead.kind, Lookahead.nth, hs.ne_mark hwhere])
  have hscope : ReadsAt s 4 [.soql .scope] 4 [] := absent (by
    simp [QueryPart.expand, clause, Lookahead.atWord, Lookahead.word, Lookahead.nth, h.filter])
  exact (word h.select (by decide)).cons ((node (hentry.cons hentries)).append
    ((node ((word h.source (by decide)).cons (hsource.cons hsources))).append hscope))

/-- The query, around what is read as its condition. -/
theorem selected (h : s.SelectsWhere) (hs : s.Spelled)
    (hc : ReadsAt s 5 [.soql .condition] j [t]) (hj : (s.nth j).word ∉ clauseWords) :
    ReadsAt s 0 [.soql .query] j [.node .query [.token (s.nth 0),
      .node .selectList [.node .selectEntry [.node .fieldName [.token (s.nth 1)]]],
      .node .fromClause [.token (s.nth 2), .node .fieldName [.token (s.nth 3)]],
      .node .whereClause [.token (s.nth 4), t]]] := by
  have hwhere : (s.nth 4).word ≠ "" := by rw [h.filter]; decide
  have hfirst : ReadsAt s 4 [.take 1] 5 [.token (s.nth 4)] := take (hs.ne_eof hwhere)
  have hsteps : QueryPart.filter.expand ⟨s, 4⟩ =
      Step.start .whereClause :: [.take 1, .soql .condition] ++ [Step.finish] := by
    simp [QueryPart.expand, clause, Lookahead.atWord, Lookahead.word, Lookahead.nth, h.filter]
  have hfilter := query (by rw [hsteps]; exact node (hfirst.cons hc))
  exact query (node ((selection h hs).append (hfilter.cons (noClauses hj))))

end Queries

section Filters

variable {s e : TokenStream} {j : Nat} {t : Tree}

/-- Two comparisons, and the word between them behind the bound operand. -/
theorem filtered (h : s.IsFilter e) (hs : s.Spelled)
    (he : ReadsAt s 8 [.expr .unary] (e.visible.size + 8) [t]) :
    ReadsAt s 0 [.soql .query] s.visible.size [s.filterTree e t] := by
  have hfirst := comparison hs h.bound (bound h.colon he)
  have hsecond := comparison hs h.plain (literal h.literal)
  have hend : (s.nth (e.visible.size + 12)).word ∉ clauseWords := by
    rw [TokenStream.nth_of_le (Nat.le_of_eq h.size), TokenStream.word_eof]
    decide
  have hjoins : ReadsAt s (e.visible.size + 8) [.take 1] (e.visible.size + 9)
      [.token (s.nth (e.visible.size + 8))] := take (by rw [h.name]; exact nofun)
  have hsteps : QueryPart.moreConditions.expand ⟨s, e.visible.size + 8⟩ =
      [.take 1, .soql .negation, .soql .conditionOperand, .soql .moreConditions] := by
    simp [QueryPart.expand, Lookahead.atAnyWord, Lookahead.word, Lookahead.nth, h.joins]
  have hmore : ReadsAt s (e.visible.size + 8) [.soql .moreConditions] (e.visible.size + 12)
      [.token (s.nth (e.visible.size + 8)), .comparison (s.nth (e.visible.size + 9))
        (s.nth (e.visible.size + 10)) [.token (s.nth (e.visible.size + 11))]] :=
    query (by rw [hsteps]; exact hjoins.cons (hsecond.append (noConditions hend)))
  rw [h.size]
  exact selected h.selects hs (query (node (hfirst.append hmore))) hend

/-- Where the bound operand takes the word behind it as well, the query ends behind that. -/
theorem cutShort (h : s.IsFilter e) (hs : s.Spelled)
    (he : ReadsAt s 8 [.expr .unary] (e.visible.size + 9) [t]) :
    ∃ u, ReadsAt s 0 [.soql .query] (e.visible.size + 9) [u] := by
  have hfirst := comparison hs h.bound (bound h.colon he)
  have hend := (Token.word_of_isLabel h.plain.field).2.2
  exact ⟨_, selected h.selects hs (query (node (hfirst.append (noConditions hend)))) hend⟩

end Filters

end ReadsAt

end Parser

end ApexSyntax
