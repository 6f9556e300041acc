-- Printed queries are read back. The induction is over the query, its entries,
-- conditions and values together; each is read in front of whatever ends it.
import ApexSyntax.Proofs.Printing.QueryParts

namespace ApexSyntax

open ApexSyntax.Parser

namespace Soql

open Printed

variable {rest : List Piece}

/-! ## Conditions -/

/-- From wherever a query, an entry, a condition, an operand or a value may stand, it is
read by its part. -/
def Query.Readable (q : Query) : Prop :=
  ∀ rest, Follow [.mark .rParen] rest → (node .query q.parts).ReadBy [.soql .query] rest

def Entry.Readable (e : Entry) : Prop :=
  ∀ rest, Follow enders rest → e.printed.ReadBy [.soql .selectEntry] rest

def Condition.Readable (c : Condition) : Prop :=
  ∀ rest, Follow (behindClause 0) rest → c.terms.ReadBy
    [.soql .negation, .soql .conditionOperand, .soql .moreConditions] rest

def Operand.Readable (o : Operand) : Prop :=
  ∀ rest, Follow enders rest → o.printed.ReadBy [.soql .conditionOperand] rest

def Value.Readable (v : Value) : Prop :=
  ∀ rest, Follow enders rest → v.printed.ReadBy [.soql .value] rest

section Conditions

variable {c : Condition} {o : Operand}

theorem negation_readBy (negated : Bool) (h : (pieceAt rest 0).word ≠ "not") :
    (negation negated).ReadBy [.soql .negation] rest := by
  cases negated with
  | false => exact clause_absent (fun v => rfl) h
  | true => exact clause_present (fun v => rfl) readBy_take rfl

theorem Operand.starts (o : Operand) : (pieceAt (o.printed.pieces ++ rest) 0).word ≠ "not" := by
  cases o with
  | comparison c r v =>
    obtain ⟨n, hn⟩ := c.starts
    rw [Operand.printed, Printed.node, pieces_join, hn]
    intro h
    have hw : n.word = "not" := h
    exact n.notMem (by simp [hw, clauseWords])
  | parenthesized c =>
    have hw : "" ≠ "not" := by decide
    exact hw

theorem Junction.word_mem (j : Junction) : j.word ∈ ["and", "or"] := by
  cases j <;> decide

theorem last_readable (negated : Bool) (ho : o.Readable) : (Condition.last negated o).Readable := by
  intro rest hrest
  have hnone : nothing.ReadBy [.soql .moreConditions] rest :=
    words_absent (fun v => rfl) (hrest.ahead (·.word ∉ ["and", "or"]) (by decide))
  have hpart : (Condition.last negated o).terms.ReadBy
      [.soql .negation, .soql .conditionOperand] rest :=
    .cons (negation_readBy negated o.starts) (ho rest hrest.ends)
  exact hpart.idle hnone

theorem link_readable (negated : Bool) (j : Junction) (ho : o.Readable) (hc : c.Readable) :
    (Condition.link negated o j c).Readable := by
  intro rest hrest
  have hsteps : (join [word j.word, c.terms]).ReadBy
      [.take 1, .soql .negation, .soql .conditionOperand, .soql .moreConditions] rest :=
    .cons readBy_take (hc rest hrest)
  have hmore : (join [word j.word, c.terms]).ReadBy [.soql .moreConditions] rest :=
    words_present (fun v => rfl) hsteps j.word_mem
  have hends : Follow enders ((join [word j.word, c.terms]).pieces ++ rest) :=
    follow_cons (by cases j <;> decide)
  have hpart : (join [o.printed, join [word j.word, c.terms]]).ReadBy
      [.soql .conditionOperand, .soql .moreConditions] rest := .cons (ho _ hends) hmore
  exact (negation_readBy negated (by rw [pieces_join]; exact o.starts)).append hpart

theorem Condition.Readable.readBy (h : c.Readable) (hrest : Follow (behindClause 0) rest) :
    (node .logicalExpression c.terms).ReadBy [.soql .condition] rest :=
  (h rest hrest).node.soql fun _ _ => rfl

theorem relation_readBy (r : Relation) :
    (flat r.pieces).ReadBy [.soql .comparisonOperator] rest := by
  have hmark : ∀ m, (Kind.mark m).comparesFields = true →
      (mark m).ReadBy [.soql .comparisonOperator] rest := by
    intro m hm
    have htake : (mark m).ReadBy [.take 1] rest := readBy_take
    refine htake.soql fun v hv => ?_
    have hk : v.kind 0 = .mark m := hv.kind_eq 0
    rw [QueryPart.expand, hk, if_pos hm]
  have hword : ∀ w ∈ ["like", "in", "includes", "excludes"],
      (word w).ReadBy [.soql .comparisonOperator] rest := by
    intro w hw
    have hspelled : (Piece.spelled w).kind = .identifier ∧ w ≠ "not" := by
      revert w
      decide
    have htake : (word w).ReadBy [.take 1] rest := readBy_take
    refine htake.soql fun v hv => ?_
    have hk : v.kind 0 = .identifier := (hv.kind_eq 0).trans hspelled.1
    have hv : v.word 0 = w := hv.word_eq 0
    have hany : v.atAnyWord ["like", "in", "includes", "excludes"] = true := by
      rw [Lookahead.atAnyWord, hv, List.contains_iff_mem]
      exact hw
    simp [QueryPart.expand, Kind.comparesFields, Lookahead.atWord, hk, hv, hspelled.2, hany]
  cases r with
  | notIn =>
    refine readBy_takeTwo.soql fun v hv => ?_
    have hk : v.kind 0 = .identifier := hv.kind_eq 0
    have hw : v.word 0 = "not" := hv.word_eq 0
    have hw' : v.word 1 = "in" := hv.word_eq 1
    simp [QueryPart.expand, Lookahead.atWord, Kind.comparesFields, hk, hw, hw']
  | like => exact hword "like" (by decide)
  | isIn => exact hword "in" (by decide)
  | includes => exact hword "includes" (by decide)
  | excludes => exact hword "excludes" (by decide)
  | _ => exact hmark _ rfl

theorem comparison_readable (d : Column) (r : Relation) {w : Value} (hw : w.Readable) :
    (Operand.comparison d r w).Readable := by
  intro rest hrest
  have hends : EndsName ((join [flat r.pieces, w.printed]).pieces ++ rest) := by
    cases r <;> exact ⟨nofun, nofun⟩
  have hpart : (join [d.printed, flat r.pieces, w.printed]).ReadBy
      [.soql .function, .soql .comparisonOperator, .soql .value] rest :=
    .cons (d.readable _ hends) (.cons (relation_readBy r) (hw rest hrest))
  have hcomparison : (Operand.comparison d r w).printed.ReadBy [.soql .comparison] rest :=
    hpart.node.soql fun v hv => rfl
  refine hcomparison.soql fun v hv => ?_
  obtain ⟨n, hn⟩ := d.starts
  have hk : v.kind 0 = .identifier := by
    rw [hv.kind_eq 0, Operand.printed, Printed.node, pieces_join, hn]
    rfl
  simp [QueryPart.expand, Lookahead.atMark, hk]

theorem parenthesized_readable (hc : c.Readable) : (Operand.parenthesized c).Readable := by
  intro rest _
  have hpart : (Operand.parenthesized c).printed.ReadBy
      [.take 1, .soql .condition, .expect (.mark .rParen)] rest :=
    .cons readBy_take (.cons (hc.readBy (follow_cons (by decide))) (readBy_mark .rParen))
  refine hpart.soql fun v hv => ?_
  have hk : v.kind 0 = .mark .lParen := hv.kind_eq 0
  simp [QueryPart.expand, Lookahead.atMark, hk]

end Conditions

/-! ## Values -/

section Values

variable {x : Printed} {ss : List Step} {v : Value} {q : Query}

/-- A value is read by the steps inside of it. -/
theorem value_readBy (h : x.ReadBy ss rest)
    (hs : ∀ v : Lookahead, v.Before (x.pieces ++ rest) → valueSteps v = ss) :
    (node .soqlValue x).ReadBy [.soql .value] rest :=
  h.node.soql fun v hv => by rw [QueryPart.expand, hs v hv]

/-- No value starts like a query. -/
theorem Value.starts (v : Value) : (pieceAt (v.printed.pieces ++ rest) 0).word ≠ "select" := by
  have hparen : "" ≠ "select" := by decide
  cases v with
  | literal c => exact c.plain
  | date n count =>
    have hn : n.word ≠ "select" := fun h => n.plain (by simp [h])
    cases count <;> exact hn
  | signed s c => exact hparen
  | bound b => exact hparen
  | list v vs => exact hparen
  | query q => exact hparen

theorem Query.pieces_eq (q : Query) : ∃ ps, q.pieces = .spelled "select" :: ps := by
  cases q
  exact ⟨_, rfl⟩

theorem valueSteps_of_isLiteral {v : Lookahead} (h : (v.kind 0).isLiteral = true) :
    valueSteps v = [.take 1] := by
  have hmark : ∀ m, v.kind 0 ≠ .mark m := by
    intro m hm
    rw [hm] at h
    cases h
  simp [valueSteps, Lookahead.atMark, hmark, h]

theorem literal_readable (c : Literal) : (Value.literal c).Readable := by
  intro rest _
  refine value_readBy readBy_take fun v hv => valueSteps_of_isLiteral ?_
  rw [hv.kind_eq 0]
  exact c.isLiteral

theorem signed_readable (s : Sign) (c : Constant) : (Value.signed s c).Readable := by
  intro rest _
  refine value_readBy readBy_takeTwo fun v hv => ?_
  have hk : v.kind 0 = .mark s.mark := hv.kind_eq 0
  have hl : (v.kind 1).isLiteral = true := by
    rw [hv.kind_eq 1]
    exact c.isLiteral
  cases s <;> simp [valueSteps, Lookahead.atMark, hk, hl, Sign.mark]

theorem date_readable (n : Label) (count : Option Constant) : (Value.date n count).Readable := by
  intro rest hrest
  have hdate : (datePrinted n count).ReadBy [.take 1, .soql .dateCount] rest := by
    cases count with
    | none =>
      have hnone : nothing.ReadBy [.soql .dateCount] rest := by
        refine readBy_nothing.soql fun v hv => ?_
        have hk : v.kind 0 ≠ .mark .colon := by
          rw [hv.kind_eq 0]
          exact fun h => by simpa using hrest.settled _ h
        simp [QueryPart.expand, Lookahead.atMark, hk]
      have htake : (flat [n.piece]).ReadBy [.take 1] rest := readBy_take
      exact htake.idle hnone
    | some c =>
      refine .cons readBy_take (readBy_takeTwo.soql fun v hv => ?_)
      have hk : v.kind 0 = .mark .colon := hv.kind_eq 0
      have hl : (v.kind 1).isLiteral = true := by
        rw [hv.kind_eq 1]
        exact c.isLiteral
      simp [QueryPart.expand, Lookahead.atMark, hk, hl]
  refine value_readBy hdate fun v hv => ?_
  have hk : v.kind 0 = .identifier := by
    rw [hv.kind_eq 0]
    cases count <;> rfl
  have hi : v.isIdentifier 0 = true := by
    rw [hv.isIdentifier_eq 0]
    cases count <;> rfl
  simp [valueSteps, Lookahead.atMark, Kind.isLiteral, hk, hi]

theorem bound_readable (b : Bound) : (Value.bound b).Readable := by
  intro rest hrest
  refine value_readBy (b.readBy hrest.settled) fun v hv => ?_
  have hk : v.kind 0 = .mark .colon := hv.kind_eq 0
  simp [valueSteps, Lookahead.atMark, hk]

/-- What a value has between parentheses. -/
theorem parentheses_readBy (h : x.ReadBy [.soql .valueList] (.mark .rParen :: rest)) :
    (node .soqlValue (join [mark .lParen, x, mark .rParen])).ReadBy [.soql .value] rest := by
  have hpart : (join [mark .lParen, x, mark .rParen]).ReadBy
      [.take 1, .soql .valueList, .expect (.mark .rParen)] rest :=
    .cons readBy_take (.cons h (readBy_mark .rParen))
  refine value_readBy hpart fun v hv => ?_
  have hk : v.kind 0 = .mark .lParen := hv.kind_eq 0
  simp [valueSteps, Lookahead.atMark, hk]

theorem Value.eachPrinted_eq (vs : List Value) : Value.eachPrinted vs = vs.map Value.printed := by
  induction vs with
  | nil => rfl
  | cons v vs ih => rw [Value.eachPrinted, ih, List.map_cons]

theorem list_readable {vs : List Value} (h : ∀ w ∈ v :: vs, w.Readable) :
    (Value.list v vs).Readable := by
  intro rest _
  have hlist : (list v.printed (vs.map Value.printed)).ReadBy [.soql .value, .soql .moreValues]
      (.mark .rParen :: rest) :=
    list_readBy (fun v => rfl) (F := Follow enders) (fun ps => follow_cons (by decide)) h
      (follow_cons (by decide)) (fun hk => by cases hk)
  rw [← Value.eachPrinted_eq] at hlist
  refine parentheses_readBy (hlist.soql fun w hw => ?_)
  have hne : w.word 0 ≠ "select" := by
    rw [hw.word_eq 0, list, pieces_join]
    exact v.starts
  simp [QueryPart.expand, Lookahead.atWord, hne]

theorem query_valueReadable (h : q.Readable) : (Value.query q).Readable := by
  intro rest _
  have hread := h (.mark .rParen :: rest) (follow_cons (by decide))
  refine parentheses_readBy (hread.soql fun v hv => ?_)
  have hw : v.word 0 = "select" := by
    obtain ⟨ps, hps⟩ := q.pieces_eq
    have hv' : v.Before (q.pieces ++ .mark .rParen :: rest) := hv
    rw [hps] at hv'
    exact hv'.word_eq 0
  simp [QueryPart.expand, Lookahead.atWord, hw]

end Values

/-! ## Entries -/

section Entries

variable {x : Printed} {ss : List Step} {q : Query}

/-- An entry is read by the steps inside of it, with an alias behind them. -/
theorem entry_readBy {name : Option Label}
    (h : x.ReadBy ss ((aliasPrinted name).pieces ++ rest)) (hrest : Follow enders rest)
    (hs : ∀ (v : Lookahead) (ps : List Piece), v.Before (x.pieces ++ ps) →
      selectEntrySteps v = ss) :
    (node .selectEntry (join [x, aliasPrinted name])).ReadBy [.soql .selectEntry] rest := by
  refine (h.append (alias_readBy name hrest)).node.soql fun v hv => ?_
  have hv' : v.Before ((join [x, aliasPrinted name]).pieces ++ rest) := hv
  rw [pieces_join] at hv'
  rw [QueryPart.expand, hs v _ hv', List.cons_append, List.cons_append, List.append_assoc]
  rfl

theorem column_readable (c : Column) (name : Option Label) : (Entry.column c name).Readable := by
  intro rest hrest
  refine entry_readBy (c.readable _ (endsName_alias name hrest)) hrest fun v ps hv => ?_
  obtain ⟨n, hn⟩ := c.starts
  have hk : v.kind 0 = .identifier := by
    rw [hv.kind_eq 0, hn]
    rfl
  have hw : v.word 0 = n.word := by
    rw [hv.word_eq 0, hn]
    rfl
  have hne : n.word ≠ "typeof" := fun h => n.plain (by simp [h])
  simp [selectEntrySteps, Lookahead.atMark, Lookahead.atWord, hk, hw, hne]

theorem subQuery_readable (name : Option Label) (h : q.Readable) :
    (Entry.subQuery q name).Readable := by
  intro rest hrest
  have hquery : (join [mark .lParen, node .query q.parts, mark .rParen]).ReadBy
      [.take 1, .soql .query, .expect (.mark .rParen)] ((aliasPrinted name).pieces ++ rest) :=
    .cons readBy_take (.cons (h _ (follow_cons (by decide))) (readBy_mark .rParen))
  refine entry_readBy hquery.node hrest fun v ps hv => ?_
  have hk : v.kind 0 = .mark .lParen := hv.kind_eq 0
  simp [selectEntrySteps, Lookahead.atMark, hk]

theorem typeOf_readable (t : TypeOf) (name : Option Label) : (Entry.typeOf t name).Readable := by
  intro rest hrest
  have hfollow : Follow behindFields ((casesPrinted t.cases t.other).pieces ++
      ((aliasPrinted name).pieces ++ rest)) := follow_cases t.cases t.other
  have hends := (hfollow.mono (by decide)).settled.endsName
  have hpart : t.printed.ReadBy [.take 1, .soql .fieldName, .soql .typeCases]
      ((aliasPrinted name).pieces ++ rest) :=
    .cons readBy_take (.cons (t.field.readBy hends.1) (cases_readBy t.cases t.other))
  refine entry_readBy hpart hrest fun v ps hv => ?_
  have hk : v.kind 0 = .identifier := hv.kind_eq 0
  have hw : v.word 0 = "typeof" := hv.word_eq 0
  simp [selectEntrySteps, Lookahead.atMark, Lookahead.atWord, hk, hw]

theorem Entry.eachPrinted_eq (es : List Entry) : Entry.eachPrinted es = es.map Entry.printed := by
  induction es with
  | nil => rfl
  | cons e es ih => rw [Entry.eachPrinted, ih, List.map_cons]

end Entries

/-! ## Queries -/

theorem filter_clauseAt {filter : Option Condition} (h : ∀ c ∈ filter, c.Readable) :
    ClauseAt 1 .filter (Condition.filterPrinted filter) := by
  cases filter with
  | none => exact clauseAt_nothing (fun v => rfl) (by decide)
  | some c =>
    refine clauseAt_clause (fun v => rfl) ⟨_, rfl⟩ (by decide) fun rest hrest => ?_
    have hcondition := (h c rfl).readBy hrest.early
    have hpart : (join [word "where", node .logicalExpression c.terms]).ReadBy
        [.take 1, .soql .condition] rest := .cons readBy_take hcondition
    exact hpart.node

theorem having_readBy {having : Option Condition} (h : ∀ c ∈ having, c.Readable)
    (hrest : Follow (behindClause 4) rest) :
    (Condition.havingPrinted having).ReadBy [.soql .having] rest ∧
      Follow (.spelled "having" :: behindClause 4)
        ((Condition.havingPrinted having).pieces ++ rest) := by
  cases having with
  | none =>
    exact ⟨clause_absent (fun v => rfl) (hrest.ahead (·.word ≠ "having") (by decide)),
      hrest.mono (List.subset_cons_self _ _)⟩
  | some c =>
    have hcondition := (h c rfl).readBy hrest.early
    have hpart : (join [word "having", node .logicalExpression c.terms]).ReadBy
        [.take 1, .soql .condition] rest := .cons readBy_take hcondition
    exact ⟨clause_present (fun v => rfl) hpart rfl, follow_cons (by decide)⟩

/-- The condition on groups can be read. -/
def Grouping.Readable (g : Grouping) : Prop := ∀ c ∈ g.having, c.Readable

theorem grouping_clauseAt {g : Option Grouping} (h : ∀ a ∈ g, a.Readable) :
    ClauseAt 3 .grouping (Grouping.printed g) := by
  rcases g with - | ⟨c, cs, having⟩
  · exact clauseAt_nothing (fun v => rfl) (by decide)
  · refine clauseAt_clause (fun v => rfl) ⟨_, rfl⟩ (by decide) fun rest hrest => ?_
    obtain ⟨hhaving, hfollow⟩ := having_readBy (h _ rfl) hrest
    have hlist : (list c.printed (cs.map Column.printed)).ReadBy
        [.soql .function, .soql .moreFunctions]
        ((Condition.havingPrinted having).pieces ++ rest) :=
      list_readBy (fun v => rfl) (F := EndsName) (fun ps => endsName_mark (by decide) (by decide))
        (fun d _ => d.readable) (hfollow.mono (by decide)).settled.endsName
        (hfollow.ahead (·.kind ≠ .mark .comma) (by decide))
    have hpart : (join [word "group", word "by", list c.printed (cs.map Column.printed),
        Condition.havingPrinted having]).ReadBy [.take 1, .expect (.spelled "by"),
          .soql .function, .soql .moreFunctions, .soql .having] rest :=
      .cons readBy_take (.cons (readBy_spelled "by") (hlist.append hhaving))
    exact hpart.node

theorem ending_clauses (e : Ending) : Clauses 4 e.printed
    [.soql .ordering, .soql .limit, .soql .offset, .soql .allRows, .soql .usage] := by
  have hlimit : ClauseAt 5 .limit (countPrinted .limitClause "limit" e.limit) :=
    count_clauseAt e.limit (fun v => rfl) (by decide) (by decide)
  have hoffset : ClauseAt 6 .offset (countPrinted .offsetClause "offset" e.offset) :=
    count_clauseAt e.offset (fun v => rfl) (by decide) (by decide)
  exact (ordering_clauseAt e.ordering).append (hlimit.append (hoffset.append
    ((allRows_clauseAt e.allRows).append (usages_clauses e.usages))))

theorem entries_readBy {entry : Entry} {entries : List Entry}
    (h : ∀ e ∈ entry :: entries, e.Readable) (hrest : Follow [.spelled "from"] rest) :
    (node .selectList (list entry.printed (Entry.eachPrinted entries))).ReadBy
      [.start .selectList, .soql .selectEntry, .soql .moreSelectEntries, .finish] rest := by
  rw [Entry.eachPrinted_eq]
  exact (list_readBy (fun v => rfl) (F := Follow enders) (fun ps => follow_cons (by decide)) h
    (hrest.mono (by decide)) (hrest.ahead (·.kind ≠ .mark .comma) (by decide))).node

theorem sources_readBy (source : Source) (sources : List Source)
    (hrest : Follow (behindClause 0) rest) :
    (node .fromClause
        (join [word "from", list source.printed (sources.map Source.printed)])).ReadBy
      [.start .fromClause, .expect (.spelled "from"), .soql .source, .soql .moreSources, .finish]
      rest := by
  have hlist : (list source.printed (sources.map Source.printed)).ReadBy
      [.soql .source, .soql .moreSources] rest :=
    list_readBy (fun v => rfl) (F := Follow enders) (fun ps => follow_cons (by decide))
      (fun s _ rest h => s.readBy h) hrest.ends hrest.noComma
  exact ((readBy_spelled "from").append hlist).node

theorem query_readable {q : Query} (hentries : ∀ e ∈ q.entry :: q.entries, e.Readable)
    (hfilter : ∀ c ∈ q.filter, c.Readable) (hgrouping : ∀ g ∈ q.grouping, g.Readable) :
    q.Readable := by
  intro rest hrest
  have hclauses := (scope_clauseAt q.scope).append ((filter_clauseAt hfilter).append
    ((access_clauseAt q.access).append ((grouping_clauseAt hgrouping).append
      (ending_clauses q.ending))))
  obtain ⟨hread, hfollow⟩ := hclauses rest hrest
  have hbehind := (sources_readBy q.source q.sources hfollow).append hread
  have hselect := (entries_readBy hentries (follow_cons List.mem_cons_self)).append hbehind
  have hparts := (readBy_spelled "select").append hselect
  cases q
  exact hparts.node.soql fun v hv => rfl

/-! ## All queries -/

mutual

theorem Query.readable : ∀ q : Query, q.Readable
  | ⟨entry, entries, _, _, _, filter, _, grouping, _⟩ =>
    query_readable (List.forall_mem_cons.2 ⟨Entry.readable entry, Entry.allReadable entries⟩)
      (Condition.eachReadable filter) (Grouping.eachReadable grouping)

theorem Entry.readable : ∀ e : Entry, e.Readable
  | .column c name => column_readable c name
  | .subQuery q name => subQuery_readable name (Query.readable q)
  | .typeOf t name => typeOf_readable t name

theorem Entry.allReadable : ∀ es : List Entry, ∀ e ∈ es, e.Readable
  | [] => nofun
  | e :: es => List.forall_mem_cons.2 ⟨Entry.readable e, Entry.allReadable es⟩

theorem Condition.readable : ∀ c : Condition, c.Readable
  | .last negated o => last_readable negated (Operand.readable o)
  | .link negated o j c => link_readable negated j (Operand.readable o) (Condition.readable c)

theorem Condition.eachReadable : ∀ o : Option Condition, ∀ c ∈ o, c.Readable
  | none => nofun
  | some c => fun _ h => Option.some.inj h ▸ Condition.readable c

theorem Operand.readable : ∀ o : Operand, o.Readable
  | .comparison c r v => comparison_readable c r (Value.readable v)
  | .parenthesized c => parenthesized_readable (Condition.readable c)

theorem Value.readable : ∀ v : Value, v.Readable
  | .literal c => literal_readable c
  | .signed s c => signed_readable s c
  | .date n count => date_readable n count
  | .bound b => bound_readable b
  | .list v vs =>
    list_readable (List.forall_mem_cons.2 ⟨Value.readable v, Value.allReadable vs⟩)
  | .query q => query_valueReadable (Query.readable q)

theorem Value.allReadable : ∀ vs : List Value, ∀ v ∈ vs, v.Readable
  | [] => nofun
  | v :: vs => List.forall_mem_cons.2 ⟨Value.readable v, Value.allReadable vs⟩

theorem Grouping.eachReadable : ∀ o : Option Grouping, ∀ g ∈ o, g.Readable
  | none => nofun
  | some ⟨_, _, having⟩ => fun _ h => Option.some.inj h ▸ Condition.eachReadable having

end

end Soql

/-- Printed queries are read back: a call reads the tokens of a query up to the end of
the text, reports nothing, and returns its tree. -/
theorem Parser.query_readsBack (q : Soql.Query) (p : Parser)
    (hp : p.lookahead.Before q.pieces) : p.ReadsBack .query q.outline := by
  have hne : q.pieces ≠ [] := by
    obtain ⟨ps, hps⟩ := q.pieces_eq
    rw [hps]
    exact List.cons_ne_nil _ ps
  exact readsBack_of_matches (q.readable [] nofun) hne hp

/-- A query with a function, a query inside of it and some clauses. -/
def Soql.Query.accounts : Soql.Query where
  entry := .column (.call ⟨⟨"count", by decide⟩, by decide⟩
    [.field ⟨⟨⟨"id", by decide⟩, by decide⟩, []⟩]) (some ⟨⟨"n", by decide⟩, by decide⟩)
  entries := [.subQuery
    { entry := .column (.field ⟨⟨⟨"name", by decide⟩, by decide⟩, []⟩) none
      entries := []
      source := ⟨⟨⟨⟨"contacts", by decide⟩, by decide⟩, []⟩, none⟩
      sources := []
      scope := none
      filter := none
      access := none
      grouping := none
      ending := ⟨none, none, none, false, []⟩ } none]
  source := ⟨⟨⟨⟨"account", by decide⟩, by decide⟩, []⟩, some ⟨⟨"own", by decide⟩, by decide⟩⟩
  sources := []
  scope := none
  filter := some (.link true
    (.comparison (.field ⟨⟨⟨"id", by decide⟩, by decide⟩, []⟩) .isIn
      (.bound ⟨⟨"ids", by decide⟩, []⟩)) .or
    (.last false (.comparison (.field ⟨⟨⟨"label", by decide⟩, by decide⟩, []⟩) .like
      (.literal ⟨⟨.literal .string, "", rfl⟩, by decide⟩))))
  access := none
  grouping := none
  ending := ⟨some (⟨.field ⟨⟨⟨"name", by decide⟩, by decide⟩, []⟩, some .desc, some .last⟩, []),
    none, none, false, [⟨true, .update, []⟩]⟩

def Soql.Query.accountsText : String :=
  "select count(id) n, (select name from contacts) from account own " ++
    "where not id in :ids or label like 'a%' order by name desc nulls last for update"

theorem Parser.query_readsBack_accounts :
    ∃ s, TokenStream.ofString .folded Soql.Query.accountsText = .ok s ∧
      (ofStream s).lookahead.Before Soql.Query.accounts.pieces ∧
      (ofStream s).ReadsBack .query Soql.Query.accounts.outline := by
  obtain ⟨s, hs⟩ := TokenStream.ofString_ok .folded Soql.Query.accountsText
  have hbefore : (TokenStream.ofString .folded Soql.Query.accountsText).toOption.map (fun s =>
      decide ((ofStream s).lookahead.Before Soql.Query.accounts.pieces)) = some true := by
    rw [TokenStream.ofString_eq_ofChars]
    delta Soql.Query.accountsText
    simp only [String.toList_append, -String.reduceToList]
    repeat rw [String.toList_ofList]
    decide +kernel
  rw [hs] at hbefore
  have hp := of_decide_eq_true (Option.some.inj hbefore)
  exact ⟨s, hs, hp, query_readsBack Soql.Query.accounts (ofStream s) hp⟩

end ApexSyntax
