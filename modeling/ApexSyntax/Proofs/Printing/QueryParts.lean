-- The parts of queries that hold no conditions are read back. Words of queries are not
-- reserved, so each part says what may come behind it: behind an entry no alias starts,
-- behind a clause only later ones come.
import ApexSyntax.Proofs.Printing.Queries
import ApexSyntax.Proofs.Printing.Climbing

namespace ApexSyntax

open ApexSyntax.Parser

/-! ## Clauses -/

namespace Printed

variable {x y : Printed} {ss ts : List Step} {rest : List Piece} {part : QueryPart}

theorem ReadBy.soql (h : x.ReadBy ss rest)
    (hs : ∀ v : Lookahead, v.Before (x.pieces ++ rest) → part.expand v = ss) :
    x.ReadBy [.soql part] rest := Matches.soql h hs

/-- A clause is left out where its word does not come next. -/
theorem clause_absent {w : String} (hpart : ∀ v, part.expand v = clause v w ss)
    (h : (pieceAt rest 0).word ≠ w) : nothing.ReadBy [.soql part] rest := by
  refine readBy_nothing.soql fun v hv => ?_
  rw [hpart, clause, if_neg]
  rw [Lookahead.atWord, beq_iff_eq, hv.word_eq 0]
  exact h

/-- A clause is read where its word comes next. -/
theorem clause_present {w : String} (hpart : ∀ v, part.expand v = clause v w ss)
    (h : x.ReadBy ss rest) (hx : (pieceAt (x.pieces ++ rest) 0).word = w) :
    x.ReadBy [.soql part] rest := by
  refine h.soql fun v hv => ?_
  rw [hpart, clause, if_pos]
  rw [Lookahead.atWord, beq_iff_eq, hv.word_eq 0]
  exact hx

/-- The same for a part that starts with one of some words. -/
theorem words_absent {ws : List String}
    (hpart : ∀ v, part.expand v = if v.atAnyWord ws then ss else [])
    (h : (pieceAt rest 0).word ∉ ws) : nothing.ReadBy [.soql part] rest := by
  refine readBy_nothing.soql fun v hv => ?_
  rw [hpart, Lookahead.atAnyWord, hv.word_eq 0, if_neg]
  rwa [List.contains_iff_mem]

theorem words_present {ws : List String}
    (hpart : ∀ v, part.expand v = if v.atAnyWord ws then ss else ts)
    (h : x.ReadBy ss rest) (hx : (pieceAt (x.pieces ++ rest) 0).word ∈ ws) :
    x.ReadBy [.soql part] rest := by
  refine h.soql fun v hv => ?_
  rw [hpart, Lookahead.atAnyWord, hv.word_eq 0, if_pos]
  rwa [List.contains_iff_mem]

end Printed

namespace Soql

open Printed

variable {as bs ps rest : List Piece} {a : Piece} {n : Nat}

/-! ## What comes next -/

/-- The text ends, or one of the pieces comes next. -/
def Follow (as rest : List Piece) : Prop := ∀ a ∈ rest.head?, a ∈ as

theorem Follow.ahead (P : Token → Prop) (h : Follow as rest)
    (hP : P (.endOfText 0 0 0 0) ∧ ∀ a ∈ as, P a.token) : P (pieceAt rest 0) := by
  cases rest with
  | nil => exact hP.1
  | cons a rest => exact hP.2 a (h a rfl)

theorem follow_cons (h : a ∈ as) : Follow as (a :: rest) := by
  intro b hb
  obtain rfl : a = b := Option.some.inj hb
  exact h

theorem Follow.mono (h : Follow as rest) (hab : as ⊆ bs) : Follow bs rest :=
  fun a ha => hab (h a ha)

/-- Behind a part that may be left out. -/
theorem Follow.append (h : Follow as ps) (h' : Follow as rest) : Follow as (ps ++ rest) := by
  cases ps with
  | nil => exact h'
  | cons a ps => exact follow_cons (h a rfl)

/-- What ends all names, aliases and values. -/
def enders : List Piece := .mark .comma :: .mark .rParen :: clauseWords.map .spelled

/-- The words that clauses start with, in their order. -/
def clauseOrder : List String :=
  ["using", "where", "with", "group", "order", "limit", "offset", "all", "for", "update"]

/-- What comes behind the clauses before a place. -/
def behindClause (n : Nat) : List Piece := .mark .rParen :: (clauseOrder.drop n).map .spelled

theorem behindClause_succ (n : Nat) : behindClause (n + 1) ⊆ behindClause n := by
  have h : clauseOrder.drop (n + 1) ⊆ clauseOrder.drop n := by
    rw [← List.tail_drop]
    exact (List.tail_sublist _).subset
  exact List.cons_subset_cons _ (List.map_subset _ h)

/-- Later clauses may stand wherever earlier ones may. -/
theorem Follow.early (h : Follow (behindClause n) rest) : Follow (behindClause 0) rest :=
  h.mono (List.cons_subset_cons _ (List.map_subset _ (List.drop_subset n clauseOrder)))

theorem Follow.ends (h : Follow (behindClause n) rest) : Follow enders rest :=
  h.early.mono (by decide +kernel)

theorem Follow.noComma (h : Follow (behindClause n) rest) :
    (pieceAt rest 0).kind ≠ .mark .comma :=
  h.early.ahead (·.kind ≠ .mark .comma) (by decide +kernel)

/-- What comes next does not go on with a name. -/
def EndsName (rest : List Piece) : Prop :=
  (pieceAt rest 0).kind ≠ .mark .dot ∧ (pieceAt rest 0).kind ≠ .mark .lParen

theorem endsName_mark {m : Mark} (hd : m ≠ .dot) (hp : m ≠ .lParen) :
    EndsName (.mark m :: rest) :=
  ⟨fun h => hd (Kind.mark.inj h), fun h => hp (Kind.mark.inj h)⟩

/-- What comes next is no mark, or ends a list. -/
def Settled (rest : List Piece) : Prop :=
  ∀ m, (pieceAt rest 0).kind = .mark m → m = .comma ∨ m = .rParen

theorem Follow.settled (h : Follow enders rest) : Settled rest := by
  have hmarks : ∀ m ∈ Mark.all, (pieceAt rest 0).kind = .mark m → m = .comma ∨ m = .rParen :=
    h.ahead (fun t => ∀ m ∈ Mark.all, t.kind = .mark m → m = .comma ∨ m = .rParen)
      (by decide +kernel)
  exact fun m => hmarks m m.mem_all

theorem Settled.endsName (h : Settled rest) : EndsName rest :=
  ⟨fun hd => by simpa using h _ hd, fun hp => by simpa using h _ hp⟩

/-- No alias starts with what ends an entry. -/
theorem Follow.noAlias (h : Follow enders rest) :
    ((pieceAt rest 0).isIdentifier && !clauseWords.contains (pieceAt rest 0).word) = false :=
  h.ahead (fun t => (t.isIdentifier && !clauseWords.contains t.word) = false) (by decide +kernel)

/-! ## Names and fields -/

theorem Label.isWord (n : Label) : n.piece.token.isWord = true := bne_iff_ne.2 n.word_ne

theorem Label.readBy (n : Label) : (flat [n.piece]).ReadBy [.expect .word] rest :=
  readBy_expect n.isWord

theorem Label.notMem (n : Label) : n.word ∉ clauseWords := by
  have h := n.plain
  simp only [List.mem_cons, not_or] at h
  exact h.2.2.2

theorem alias_readBy (n : Option Label) (h : Follow enders rest) :
    (aliasPrinted n).ReadBy [.soql .alias] rest := by
  cases n with
  | none =>
    refine readBy_nothing.soql fun v hv => ?_
    rw [QueryPart.expand, Lookahead.aliasAhead, hv.isIdentifier_eq 0, hv.word_eq 0, if_neg]
    rw [Bool.not_eq_true]
    exact h.noAlias
  | some n =>
    have htake : (flat [n.piece]).ReadBy [.take 1] rest := readBy_take
    refine htake.soql fun v hv => ?_
    have hi : v.isIdentifier 0 = true := hv.isIdentifier_eq 0
    have hw : v.word 0 = n.word := hv.word_eq 0
    simp [QueryPart.expand, Lookahead.aliasAhead, hi, hw, n.notMem]

theorem endsName_alias (n : Option Label) (h : Follow enders rest) :
    EndsName ((aliasPrinted n).pieces ++ rest) := by
  cases n with
  | none => exact h.settled.endsName
  | some n => exact ⟨nofun, nofun⟩

/-- Words behind dots, whatever they are printed from. -/
theorem dots_readBy {α : Type} {f : α → Piece} (hf : ∀ c, (f c).token.isWord = true) (cs : List α)
    (h : (pieceAt rest 0).kind ≠ .mark .dot) :
    (flat (cs.flatMap fun c => [.mark .dot, f c])).ReadBy [.soql .dottedWords] rest := by
  induction cs with
  | nil =>
    refine readBy_nothing.soql fun v hv => ?_
    have hk : v.kind 0 ≠ .mark .dot := by
      rw [hv.kind_eq 0]
      exact h
    simp [QueryPart.expand, Lookahead.atMark, hk]
  | cons c cs ih =>
    have hpart : (join [flat [.mark .dot, f c], _]).ReadBy [.take 2, .soql .dottedWords] rest :=
      .cons readBy_takeTwo ih
    refine hpart.soql fun v hv => ?_
    have hk : v.kind 0 = .mark .dot := hv.kind_eq 0
    have hw : v.isWord 1 = true := (hv.isWord_eq 1).trans (hf c)
    simp [QueryPart.expand, Lookahead.atMark, hk, hw]

theorem Field.readBy (f : Field) (h : (pieceAt rest 0).kind ≠ .mark .dot) :
    f.printed.ReadBy [.soql .fieldName] rest := by
  have hpart : (join [flat [f.first.piece], _]).ReadBy [.expect .word, .soql .dottedWords] rest :=
    .cons f.first.readBy (dots_readBy Label.isWord f.more h)
  exact hpart.node.soql fun v hv => rfl

theorem Fields.readBy (fs : Fields) (h : EndsName rest)
    (hend : (pieceAt rest 0).kind ≠ .mark .comma) :
    fs.printed.ReadBy [.soql .fieldList] rest := by
  have hlist : fs.printed.ReadBy [.soql .fieldName, .soql .moreFields] rest :=
    list_readBy (fun v => rfl) (F := EndsName) (fun ps => endsName_mark (by decide) (by decide))
      (fun f _ rest hf => f.readBy hf.1) h hend
  exact hlist.soql fun v hv => rfl

/-- A column is read where no name goes on. -/
def Column.Readable (c : Column) : Prop :=
  ∀ rest, EndsName rest → c.printed.ReadBy [.soql .function] rest

namespace Column

theorem eachPrinted_eq (cs : List Column) : eachPrinted cs = cs.map printed := by
  induction cs with
  | nil => rfl
  | cons c cs ih => rw [eachPrinted, ih, List.map_cons]

/-- A column starts with a name. -/
theorem starts (c : Column) :
    ∃ n : Label, ∀ rest, pieceAt (c.printed.pieces ++ rest) 0 = n.piece.token := by
  cases c with
  | field f => exact ⟨f.first, fun _ => rfl⟩
  | call f args => exact ⟨f, fun _ => rfl⟩

theorem field_readable (f : Field) : (field f).Readable := by
  intro rest h
  refine (f.readBy h.1).soql fun v hv => ?_
  have hk : v.kind 1 ≠ .mark .lParen := by
    rw [hv.kind_eq 1]
    obtain ⟨n, ns⟩ := f
    cases ns with
    | nil => exact h.2
    | cons m ms =>
      intro hk
      cases hk
  simp [QueryPart.expand, hk]

theorem arguments_readBy {args : List Column} (h : ∀ c ∈ args, c.Readable) :
    (arguments (args.map printed)).ReadBy [.soql .functionArguments]
      (.mark .rParen :: rest) := by
  cases args with
  | nil =>
    refine readBy_nothing.soql fun v hv => ?_
    have hk : v.kind 0 = .mark .rParen := hv.kind_eq 0
    simp [QueryPart.expand, Lookahead.atMark, hk]
  | cons c cs =>
    have hlist : (list c.printed (cs.map printed)).ReadBy
        [.soql .function, .soql .moreFunctions] (.mark .rParen :: rest) :=
      list_readBy (fun v => rfl) (F := EndsName) (fun ps => endsName_mark (by decide) (by decide))
        h (endsName_mark (by decide) (by decide)) (fun hk => by cases hk)
    refine hlist.soql fun v hv => ?_
    obtain ⟨n, hn⟩ := c.starts
    have hk : v.kind 0 = .identifier := by
      rw [hv.kind_eq 0, list, pieces_join, hn]
      rfl
    simp [QueryPart.expand, Lookahead.atMark, hk]

theorem call_readable (f : Label) {args : List Column} (h : ∀ c ∈ args, c.Readable) :
    (call f args).Readable := by
  intro rest _
  have hpart : (join [flat [f.piece, .mark .lParen], arguments (args.map printed),
      mark .rParen]).ReadBy [.take 2, .soql .functionArguments, .expect (.mark .rParen)] rest :=
    .cons readBy_takeTwo (.cons (arguments_readBy h) (readBy_mark .rParen))
  rw [← eachPrinted_eq] at hpart
  refine hpart.node.soql fun v hv => ?_
  have hw : v.isWord 0 = true := (hv.isWord_eq 0).trans f.isWord
  have hk : v.kind 1 = .mark .lParen := hv.kind_eq 1
  simp [QueryPart.expand, hw, hk]

mutual

theorem readable : ∀ c : Column, c.Readable
  | .field f => field_readable f
  | .call f args => call_readable f (allReadable args)

theorem allReadable : ∀ cs : List Column, ∀ c ∈ cs, c.Readable
  | [] => nofun
  | c :: cs => List.forall_mem_cons.2 ⟨readable c, allReadable cs⟩

end

end Column

/-! ## Bound values -/

/-- A name is an operand where it is no call and no type with arguments. -/
theorem matches_name (n : Name) (h : ∀ m, (pieceAt rest 0).kind = .mark m →
    m ≠ .lParen ∧ m ≠ .lt ∧ m ≠ .lBrack) :
    Matches [.expr .primary] [.named n.word]
      [.node .primaryExpression [.token .identifier n.word]] rest := by
  have htake : Matches [.take 1] [.named n.word] [.token .identifier n.word] rest := .take
  refine htake.node.expr fun v mark hv => ?_
  have hk : v.kind 0 = .identifier := hv.kind_eq 0
  have ht : v.isTypeName 0 = true := hv.isTypeName_eq 0
  have hne : ∀ m, v.kind 1 = .mark m → m ≠ .lParen ∧ m ≠ .lt ∧ m ≠ .lBrack := by
    rw [hv.kind_eq 1]
    exact h
  have hparen : v.kind 1 ≠ .mark .lParen := fun hm => (hne _ hm).1 rfl
  have hangle : v.kind 1 ≠ .mark .lt := fun hm => (hne _ hm).2.1 rfl
  have hbrack : v.kind 1 ≠ .mark .lBrack := fun hm => (hne _ hm).2.2 rfl
  simp [ExprPart.expand, primarySteps, Lookahead.atKeyword, Lookahead.atMark,
    Lookahead.classReferenceAhead, Kind.isLiteral, hk, ht, hparen, hangle, hbrack]

/-- Members behind an operand are read into it one by one. -/
theorem runs_members (ns : List Name) {p q : Parser} {o : Outline} (hs : Settled rest)
    (h : p.Gives [o] (memberPieces ns ++ rest) q) :
    ∃ r, Runs [.expr (.suffixes p.tree.mark)] q r ∧
      p.Gives [ns.foldl memberOutline o] rest r := by
  induction ns generalizing q o with
  | nil =>
    have hne : ∀ m, m ≠ .comma ∧ m ≠ .rParen → q.lookahead.kind 0 ≠ .mark m := by
      intro m hm hk
      rw [h.before.kind_eq 0] at hk
      exact (hs m hk).elim hm.1 hm.2
    refine ⟨q, runs_one ?_, h⟩
    simp [perform, ExprPart.expand, Lookahead.atMark, hne]
  | cons n ns ih =>
    have hmember : Matches [.expr .member] [.named n.word] [.token .identifier n.word]
        (memberPieces ns ++ rest) := by
      have hword : Matches [.expect .word] [.named n.word] [.token .identifier n.word]
          (memberPieces ns ++ rest) := Matches.expect (bne_iff_ne.2 n.word_ne)
      refine hword.expr fun v mark hv => ?_
      have hk : v.kind 1 ≠ .mark .lParen := by
        rw [hv.kind_eq 1]
        cases ns with
        | nil => exact hs.endsName.2
        | cons m ms =>
          intro hk
          cases hk
      simp [ExprPart.expand, hk]
    have hsteps : Matches [.take 1, .expr .member] [.mark .dot, .named n.word]
        [.mark .dot, .token .identifier n.word] (memberPieces ns ++ rest) :=
      (Matches.take (a := .mark .dot)).cons hmember
    obtain ⟨r, hr, hg⟩ := hsteps (q.build (·.wrap p.tree.mark .dotExpression)) h.before
    obtain ⟨t, ht, hgt⟩ := ih (h.wrap hg)
    have hwrap : Runs
        (Step.wrap p.tree.mark .dotExpression :: [.take 1, .expr .member] ++ [Step.finish])
        q (r.build (·.finish)) := (Leads.append (runs_one rfl) hr).append (runs_one rfl)
    refine ⟨t, runs_part ?_ (hwrap.append ht), hgt⟩
    have hk : q.lookahead.kind 0 = .mark .dot := h.before.kind_eq 0
    simp [perform, ExprPart.expand, Lookahead.atMark, hk]

theorem Bound.readBy (b : Bound) (hs : Settled rest) : b.printed.ReadBy boundSteps rest := by
  have hpath : b.path.ReadBy [.expr .unary] rest := by
    intro p hp
    have hnext : ∀ m, (pieceAt (memberPieces b.more ++ rest) 0).kind = .mark m →
        m ≠ .lParen ∧ m ≠ .lt ∧ m ≠ .lBrack := by
      intro m hm
      cases hmore : b.more with
      | nil =>
        rw [hmore] at hm
        rcases hs m hm with rfl | rfl <;> decide
      | cons n ns =>
        rw [hmore] at hm
        cases hm
        decide
    obtain ⟨q, hq, hg⟩ := matches_name b.first hnext p hp
    obtain ⟨r, hr, hgr⟩ := runs_members b.more hs hg
    have hoperand : Runs [.expr .operand] p r := runs_part rfl (hq.append hr)
    refine ⟨r, runs_part ?_ hoperand, hgr⟩
    have hk : p.lookahead.kind 0 = .identifier := hp.kind_eq 0
    simp [perform, ExprPart.expand, unarySteps, hk]
  have hpart : (join [mark .colon, b.path]).ReadBy [.take 1, .expr .unary] rest :=
    .cons readBy_take hpath
  exact hpart.node

/-! ## Parts without conditions -/

/-- What comes behind the fields that are selected of a type. -/
def behindFields : List Piece := [.spelled "when", .spelled "else", .spelled "end"]

theorem follow_cases (cs : List TypeCase) (other : Option Fields) :
    Follow behindFields ((casesPrinted cs other).pieces ++ rest) := by
  cases cs with
  | nil => cases other <;> exact follow_cons (by decide)
  | cons c cs => exact follow_cons (by decide)

theorem cases_readBy (cs : List TypeCase) (other : Option Fields) :
    (casesPrinted cs other).ReadBy [.soql .typeCases] rest := by
  have hfields : ∀ (fs : Fields) {rest : List Piece}, Follow behindFields rest →
      fs.printed.ReadBy [.soql .fieldList] rest := fun fs rest h =>
    fs.readBy (h.mono (by decide)).settled.endsName (h.ahead (·.kind ≠ .mark .comma) (by decide))
  induction cs with
  | nil =>
    cases other with
    | none =>
      refine (readBy_spelled "end").soql fun v hv => ?_
      have hw : v.word 0 = "end" := hv.word_eq 0
      simp [QueryPart.expand, Lookahead.atWord, hw]
    | some fs =>
      have hpart : (join [word "else", fs.printed, word "end"]).ReadBy
          [.take 1, .soql .fieldList, .expect (.spelled "end")] rest :=
        .cons readBy_take (.cons (hfields fs (follow_cons (by decide))) (readBy_spelled "end"))
      refine hpart.soql fun v hv => ?_
      have hw : v.word 0 = "else" := hv.word_eq 0
      simp [QueryPart.expand, Lookahead.atWord, hw]
  | cons c cs ih =>
    have hpart : (casesPrinted (c :: cs) other).ReadBy [.take 1, .expect .word,
        .expect (.spelled "then"), .soql .fieldList, .soql .typeCases] rest :=
      .cons readBy_take (.cons c.type.readBy (.cons (readBy_spelled "then")
        (.cons (hfields c.fields (follow_cases cs other)) ih)))
    refine hpart.soql fun v hv => ?_
    have hw : v.word 0 = "when" := hv.word_eq 0
    simp [QueryPart.expand, Lookahead.atWord, hw]

theorem Source.readBy (s : Source) (h : Follow enders rest) :
    s.printed.ReadBy [.soql .source] rest := by
  have hpart : s.printed.ReadBy [.soql .fieldName, .soql .alias] rest :=
    .cons (s.field.readBy (endsName_alias s.name h).1) (alias_readBy s.name h)
  exact hpart.soql fun v hv => rfl

/-- What comes behind an entry of an order, behind its direction and behind its column. -/
def behindOrder : List Piece := .mark .comma :: behindClause 5

def behindDirection : List Piece := .spelled "nulls" :: behindOrder

def behindColumn : List Piece := .spelled "asc" :: .spelled "desc" :: behindDirection

theorem nulls_readBy (place : Option NullsPlace) (h : Follow behindOrder rest) :
    (NullsPlace.printed place).ReadBy [.soql .nulls] rest ∧
      Follow behindDirection ((NullsPlace.printed place).pieces ++ rest) := by
  have hpart : ∀ w, w ∈ ["first", "last"] →
      (join [word "nulls", word w]).ReadBy [.take 1, .soql .nullsPlace] rest :=
    fun w hw => .cons readBy_take (words_present (fun v => rfl) readBy_take hw)
  rcases place with - | - | -
  · exact ⟨clause_absent (fun v => rfl) (h.ahead (·.word ≠ "nulls") (by decide)),
      h.mono (List.subset_cons_self _ _)⟩
  · exact ⟨clause_present (fun v => rfl) (hpart "first" (by decide)) rfl, follow_cons (by decide)⟩
  · exact ⟨clause_present (fun v => rfl) (hpart "last" (by decide)) rfl, follow_cons (by decide)⟩

theorem direction_readBy (d : Option Direction) (h : Follow behindDirection rest) :
    (Direction.printed d).ReadBy [.soql .direction] rest ∧
      Follow behindColumn ((Direction.printed d).pieces ++ rest) := by
  have hword : ∀ w, w ∈ ["asc", "desc"] → (word w).ReadBy [.soql .direction] rest :=
    fun w hw => words_present (fun v => rfl) readBy_take hw
  rcases d with - | - | -
  · exact ⟨words_absent (fun v => rfl) (h.ahead (·.word ∉ ["asc", "desc"]) (by decide)),
      h.mono (List.Subset.trans (List.subset_cons_self _ _) (List.subset_cons_self _ _))⟩
  · exact ⟨hword "asc" (by decide), follow_cons (by decide)⟩
  · exact ⟨hword "desc" (by decide), follow_cons (by decide)⟩

theorem OrderEntry.readBy (e : OrderEntry) (h : Follow behindOrder rest) :
    e.printed.ReadBy [.soql .orderEntry] rest := by
  obtain ⟨hnulls, hfollow⟩ := nulls_readBy e.nulls h
  obtain ⟨hdirection, hfollow⟩ := direction_readBy e.direction hfollow
  have hends : EndsName ((join [Direction.printed e.direction, NullsPlace.printed e.nulls]).pieces
      ++ rest) := by
    rw [pieces_join]
    exact (hfollow.mono (by decide +kernel)).settled.endsName
  have hpart : e.printed.ReadBy [.soql .function, .soql .direction, .soql .nulls] rest :=
    .cons (e.column.readable _ hends) (.cons hdirection hnulls)
  exact hpart.soql fun v hv => rfl

theorem Count.readBy (c : Count) (h : Settled rest) : c.printed.ReadBy [.soql .count] rest := by
  cases c with
  | number c hc =>
    have hexpect : (flat [c.piece]).ReadBy [.expect (.kind (.literal .integer))] rest :=
      readBy_expect (beq_iff_eq.2 hc)
    refine hexpect.soql fun v hv => ?_
    have hk : v.kind 0 = .literal .integer := (hv.kind_eq 0).trans hc
    simp [QueryPart.expand, Lookahead.atMark, hk]
  | bound b =>
    refine (b.readBy h).soql fun v hv => ?_
    have hk : v.kind 0 = .mark .colon := hv.kind_eq 0
    simp [QueryPart.expand, Lookahead.atMark, hk]

/-! ## Clauses -/

/-- The part is a clause of a place: it may be left out, and only later clauses come
behind it. -/
structure ClauseAt (n : Nat) (part : QueryPart) (x : Printed) : Prop where
  first : Follow (behindClause n) x.pieces
  readBy : ∀ rest, Follow (behindClause (n + 1)) rest → x.ReadBy [.soql part] rest

/-- The clauses from a place on, up to the end of a query. -/
def Clauses (n : Nat) (x : Printed) (ss : List Step) : Prop :=
  ∀ rest, Follow [.mark .rParen] rest → x.ReadBy ss rest ∧ Follow (behindClause n) (x.pieces ++ rest)

section Clauses

variable {part : QueryPart} {x y : Printed} {ss : List Step} {w : String}

theorem ClauseAt.append (h : ClauseAt n part x) (h' : Clauses (n + 1) y ss) :
    Clauses n (x ++ y) (.soql part :: ss) := by
  intro rest hrest
  obtain ⟨hread, hfollow⟩ := h' rest hrest
  have hboth : Follow (behindClause n) (x.pieces ++ (y.pieces ++ rest)) :=
    h.first.append (hfollow.mono (behindClause_succ n))
  rw [← List.append_assoc] at hboth
  exact ⟨(h.readBy _ hfollow).append hread, hboth⟩

theorem clauseAt_nothing (hpart : ∀ v, part.expand v = clause v w ss)
    (hw : "" ≠ w ∧ ∀ a ∈ behindClause (n + 1), a.word ≠ w) : ClauseAt n part nothing :=
  ⟨nofun, fun _ h => clause_absent hpart (h.ahead (·.word ≠ w) hw)⟩

theorem clauseAt_clause (hpart : ∀ v, part.expand v = clause v w ss)
    (hx : ∃ ps, x.pieces = .spelled w :: ps) (hw : .spelled w ∈ behindClause n)
    (h : ∀ rest, Follow (behindClause (n + 1)) rest → x.ReadBy ss rest) : ClauseAt n part x := by
  obtain ⟨ps, hx⟩ := hx
  refine ⟨?_, fun rest hrest => clause_present hpart (h rest hrest) ?_⟩
  · rw [hx]
    exact follow_cons hw
  · rw [hx]
    rfl

theorem scope_clauseAt (n : Option Label) : ClauseAt 0 .scope (scopePrinted n) := by
  cases n with
  | none => exact clauseAt_nothing (fun v => rfl) (by decide)
  | some n =>
    refine clauseAt_clause (fun v => rfl) ⟨_, rfl⟩ (by decide) fun rest _ => ?_
    exact .cons readBy_take (.cons (readBy_spelled "scope") n.readBy)

theorem access_clauseAt (n : Option Label) : ClauseAt 2 .access (accessPrinted n) := by
  cases n with
  | none => exact clauseAt_nothing (fun v => rfl) (by decide)
  | some n =>
    refine clauseAt_clause (fun v => rfl) ⟨_, rfl⟩ (by decide) fun rest _ => ?_
    have hname : (flat [n.piece]).ReadBy [.soql .accessFilter] rest := by
      refine n.readBy.soql fun v hv => ?_
      have hw : v.word 0 = n.word := hv.word_eq 0
      have hne : n.word ≠ "data" := fun h => n.plain (by simp [h])
      simp [QueryPart.expand, Lookahead.atWord, hw, hne]
    have hpart : (join [word "with", flat [n.piece]]).ReadBy [.take 1, .soql .accessFilter] rest :=
      .cons readBy_take hname
    exact hpart.node

theorem ordering_clauseAt (o : Option (OrderEntry × List OrderEntry)) :
    ClauseAt 4 .ordering (orderingPrinted o) := by
  rcases o with - | ⟨e, es⟩
  · exact clauseAt_nothing (fun v => rfl) (by decide)
  · refine clauseAt_clause (fun v => rfl) ⟨_, rfl⟩ (by decide) fun rest hrest => ?_
    have hlist : (list e.printed (es.map OrderEntry.printed)).ReadBy
        [.soql .orderEntry, .soql .moreOrderEntries] rest :=
      list_readBy (fun v => rfl) (F := Follow behindOrder)
        (fun ps => follow_cons List.mem_cons_self) (fun e _ rest h => e.readBy h)
        (hrest.mono (List.subset_cons_self _ _)) hrest.noComma
    have hpart : (join [word "order", word "by",
        list e.printed (es.map OrderEntry.printed)]).ReadBy
        [.take 1, .expect (.spelled "by"), .soql .orderEntry, .soql .moreOrderEntries] rest :=
      .cons readBy_take (.cons (readBy_spelled "by") hlist)
    exact hpart.node

theorem count_clauseAt {rule : Rule} (c : Option Count)
    (hpart : ∀ v, part.expand v = clause v w [.start rule, .take 1, .soql .count, .finish])
    (hw : .spelled w ∈ behindClause n)
    (hne : "" ≠ w ∧ ∀ a ∈ behindClause (n + 1), a.word ≠ w) :
    ClauseAt n part (countPrinted rule w c) := by
  cases c with
  | none => exact clauseAt_nothing hpart hne
  | some c =>
    refine clauseAt_clause hpart ⟨_, rfl⟩ hw fun rest hrest => ?_
    have hsteps : (join [word w, c.printed]).ReadBy [.take 1, .soql .count] rest :=
      .cons readBy_take (c.readBy hrest.ends.settled)
    exact hsteps.node

theorem allRows_clauseAt (b : Bool) : ClauseAt 7 .allRows (allRowsPrinted b) := by
  cases b with
  | false => exact clauseAt_nothing (fun v => rfl) (by decide)
  | true =>
    refine clauseAt_clause (fun v => rfl) ⟨_, rfl⟩ (by decide) fun rest _ => ?_
    exact .cons readBy_take (readBy_spelled "rows")

theorem Purpose.readBy (a : Purpose) : a.printed.ReadBy [.expect .word] rest := by
  cases a with
  | named n => exact n.readBy
  | update => exact readBy_expect rfl

theorem Usage.word_mem (u : Usage) : u.word ∈ ["for", "update"] := by
  unfold Usage.word
  split <;> decide

theorem usageClauses_clauses (us : List Usage) :
    Clauses 8 (usageClauses us) [.soql .usageClauses] := by
  intro rest hrest
  induction us with
  | nil =>
    exact ⟨words_absent (fun v => rfl) (hrest.ahead (·.word ∉ ["for", "update"]) (by decide)),
      hrest.mono (by decide)⟩
  | cons u us ih =>
    obtain ⟨hread, hfollow⟩ := ih
    have hlist : (list u.first.printed (u.more.map Purpose.printed)).ReadBy
        [.expect .word, .soql .moreUsages] ((usageClauses us).pieces ++ rest) :=
      list_readBy (fun v => rfl) (F := fun _ => True) (fun ps => trivial)
        (fun a _ rest _ => a.readBy) trivial hfollow.noComma
    have hbehind : (join [list u.first.printed (u.more.map Purpose.printed),
        usageClauses us]).ReadBy [.expect .word, .soql .moreUsages, .soql .usageClauses] rest :=
      hlist.append hread
    have hpart : (usageClauses (u :: us)).ReadBy
        [.take 1, .expect .word, .soql .moreUsages, .soql .usageClauses] rest :=
      .cons readBy_take hbehind
    exact ⟨words_present (fun v => rfl) hpart u.word_mem,
      follow_cons (List.mem_cons_of_mem _ (List.mem_map_of_mem u.word_mem))⟩

theorem usages_clauses (us : List Usage) : Clauses 8 (usagesPrinted us) [.soql .usage] := by
  intro rest hrest
  cases us with
  | nil =>
    exact ⟨words_absent (fun v => rfl) (hrest.ahead (·.word ∉ ["for", "update"]) (by decide)),
      hrest.mono (by decide)⟩
  | cons u us =>
    obtain ⟨hread, hfollow⟩ := usageClauses_clauses (u :: us) rest hrest
    exact ⟨words_present (fun v => rfl) hread.node u.word_mem, hfollow⟩

end Clauses

end Soql

end ApexSyntax
