-- What steps open and close. A part closes no bracket that it has not opened, apart from
-- the lists behind an opening bracket, which end with the bracket that closes it.
import ApexSyntax.Proofs.Lexer.Words
import ApexSyntax.Proofs.Nesting.Words
import ApexSyntax.Proofs.Parser.Runs

namespace ApexSyntax

/-! ## Words of steps -/

/-- The word of a token, without one that is no bracket. -/
def Kind.brackets (k : Kind) : List Kind := if k.isPlain then [] else [k]

/-- What is expected and is no kind is a word. -/
def Expected.brackets : Expected → List Kind
  | kind k => k.brackets
  | _ => []

/-- A word that nests like what a step reads when nothing is reported. -/
def Step.brackets : Step → List Kind
  | expect e => e.brackets
  | expectThen e next => e.brackets ++ next.brackets
  | expr .arraySize => [.mark .rBrack]
  | expr (.initializerValues _) | expr (.initializerRest _) => [.mark .rBrace]
  | stmt .blockStatements | stmt .whenClauses | stmt .moreWhenClauses => [.mark .rBrace]
  | decl .triggerMembers | decl .elementValues | decl .classMembers | decl .accessors
  | decl .interfaceMembers | decl .enumConstants => [.mark .rBrace]
  | decl .annotationValues => [.mark .rParen]
  | _ => []

/-- What the step reads nests like its word, whatever lies ahead of it. -/
def Step.nests : Step → Bool
  | take _ | soql .searchTerm | soql .searchBraces | soql (.searchRest _) => false
  | takeIf m => (Kind.mark m).isPlain
  | expect e => e != .spelled ""
  | expectThen e next => e != .spelled "" && next.nests
  | _ => true

/-- The kinds of the next `n` tokens. -/
def Lookahead.kinds (v : Lookahead) (n : Nat) : List Kind := (List.range n).map v.kind

/-- A word that nests like what some steps read. Only the first of them that reads
anything may take tokens as they come. -/
def Lookahead.bracketsOf (v : Lookahead) : List Step → List Kind
  | .start _ :: ss | .wrap _ _ :: ss => v.bracketsOf ss
  | .take n :: ss => v.kinds n ++ ss.flatMap Step.brackets
  | ss => ss.flatMap Step.brackets

def nestsBehindTake : List Step → Bool
  | .start _ :: ss | .wrap _ _ :: ss => nestsBehindTake ss
  | .take _ :: ss => ss.all Step.nests
  | ss => ss.all Step.nests

/-- The steps that a step leads to nest like the step itself. -/
structure Turns (v : Lookahead) (s : Step) (ss : List Step) : Prop where
  nests : nestsBehindTake ss = true
  nest_eq (st : List Bracket) : nest st (v.bracketsOf ss) = nest st s.brackets

/-! ## Tokens that are no brackets -/

namespace Kind

variable {k : Kind}

theorem isPlain_of_isWord (h : k.isWord = true) : k.isPlain = true := by
  cases k <;> first | rfl | cases h

theorem isPlain_of_isLiteral (h : k.isLiteral = true) : k.isPlain = true := by
  cases k with
  | mark => cases h
  | _ => rfl

theorem isPlain_of_isModifier (h : k.isModifier = true) : k.isPlain = true := by
  cases k with
  | mark => cases h
  | _ => rfl

theorem isPlain_of_isDml (h : k.isDml = true) : k.isPlain = true := by
  cases k with
  | mark => cases h
  | _ => rfl

theorem isPlain_of_isAssignment (h : k.isAssignment = true) : k.isPlain = true := by
  cases k with
  | mark m => cases m <;> first | rfl | cases h
  | _ => rfl

end Kind

theorem Kind.isPlain_of_comparesFields {k : Kind} (h : k.comparesFields = true) :
    k.isPlain = true := by
  cases k with
  | mark m => cases m <;> first | rfl | cases h
  | _ => rfl

theorem Token.isPlain_of_isIdentifier {t : Token} (h : t.isIdentifier = true) :
    t.kind.isPlain = true := by
  cases hk : t.kind with
  | mark m => simp [isIdentifier, hk, Kind.isSoftKeyword] at h
  | _ => rfl

namespace Lookahead

variable {v : Lookahead} {n : Nat}

theorem isPlain_of_mark {m : Mark} (h : v.atMark m = true) (hm : (Kind.mark m).isPlain = true) :
    (v.kind 0).isPlain = true := by
  rwa [beq_iff_eq.1 h]

theorem isPlain_of_keyword {k : Keyword} (h : v.atKeyword k = true) :
    (v.kind 0).isPlain = true := by
  rw [beq_iff_eq.1 h]
  rfl

theorem isPlain_of_isIdentifier (h : v.isIdentifier n = true) : (v.kind n).isPlain = true :=
  Token.isPlain_of_isIdentifier h

theorem isPlain_of_isTypeName (h : v.isTypeName n = true) : (v.kind n).isPlain = true := by
  simp only [isTypeName, Token.isTypeName, Bool.or_eq_true, beq_iff_eq] at h
  rcases h with (h | h) | h
  · exact isPlain_of_isIdentifier h
  · rw [kind, h]; rfl
  · rw [kind, h]; rfl

/-- Only names and keywords have a word, so a token that has one is no bracket. -/
theorem isPlain_of_word (hs : v.stream.Spelled) (h : v.word n ≠ "") :
    (v.kind n).isPlain = true := by
  apply Kind.isPlain_of_isWord
  apply Classical.byContradiction
  intro hw
  exact h (hs.word_nth (Bool.eq_false_iff.2 hw))

theorem isPlain_of_isWord (hs : v.stream.Spelled) (h : v.isWord n = true) :
    (v.kind n).isPlain = true :=
  isPlain_of_word hs (bne_iff_ne.1 h)

theorem isPlain_of_wordIn (hs : v.stream.Spelled) {ws : List String} (h : v.word n ∈ ws)
    (hw : "" ∉ ws) : (v.kind n).isPlain = true :=
  isPlain_of_word hs fun he => hw (he ▸ h)

theorem isPlain_of_atWord (hs : v.stream.Spelled) {w : String} (h : v.atWord w = true)
    (hw : w ≠ "") : (v.kind 0).isPlain = true :=
  isPlain_of_word hs (by rwa [beq_iff_eq.1 h])

theorem isPlain_of_doubled {m : Mark} (h : v.doubled m = true)
    (hm : (Kind.mark m).isPlain = true) (hn : n < 2) : (v.kind n).isPlain = true := by
  simp only [doubled, Bool.and_eq_true, beq_iff_eq] at h
  obtain rfl | rfl : n = 0 ∨ n = 1 := by omega
  · exact isPlain_of_mark h.1.1 hm
  · rwa [h.1.2]

theorem isPlain_of_comparison (h : v.comparisonAhead = true) : (v.kind 0).isPlain = true := by
  simp only [comparisonAhead, Bool.or_eq_true, Bool.and_eq_true] at h
  obtain ((hm | hm) | ⟨hm, -⟩) | ⟨hm, -⟩ := h
  all_goals exact isPlain_of_mark hm rfl

theorem isPlain_of_operator {level : Nat} {r : Rule} {size : Nat}
    (h : v.operatorAhead level = some (r, size)) (hn : n < size) :
    (v.kind n).isPlain = true := by
  unfold operatorAhead at h
  split at h
  case h_8 =>
    split at h
    · rename_i hk
      cases h
      obtain rfl : n = 0 := by omega
      exact isPlain_of_keyword hk
    · split at h
      · rename_i hc
        cases h
        obtain rfl : n = 0 := by omega
        exact isPlain_of_comparison hc
      · cases h
  case h_9 =>
    split at h
    · cases h
      exact isPlain_of_doubled ‹_› rfl hn
    · split at h
      · rename_i hd
        cases h
        split at hn
        · rename_i h2
          obtain hn | rfl : n < 2 ∨ n = 2 := by omega
          · exact isPlain_of_doubled hd rfl hn
          · rw [beq_iff_eq.1 (Bool.and_eq_true_iff.1 h2).1]
            rfl
        · exact isPlain_of_doubled hd rfl hn
      · cases h
  case h_12 => cases h
  -- At the other levels an operator is one mark, of one kind or of several.
  all_goals
    split at h
    case isFalse => cases h
    case isTrue hm =>
      cases h
      obtain rfl : n = 0 := by omega
      first
      | exact isPlain_of_mark hm rfl
      | simp only [Bool.or_eq_true] at hm
        repeat' rcases hm with hm | hm
        all_goals exact isPlain_of_mark hm rfl

end Lookahead

/-! ## Words that begin with tokens as they come -/

section Turns

variable {v : Lookahead} {s : Step} {ss : List Step}

theorem nest_plains {ks : List Kind} (h : ∀ k ∈ ks, k.isPlain = true) (st : List Bracket)
    (ls : List Kind) : nest st (ks ++ ls) = nest st ls := by
  induction ks with
  | nil => rfl
  | cons k ks ih =>
    rw [List.cons_append, nest_plain (h k List.mem_cons_self)]
    exact ih fun l hl => h l (List.mem_cons_of_mem k hl)

/-- The closing bracket itself. -/
theorem turns_closing {m : Mark} (h : v.atMark m = true) (hn : nestsBehindTake ss = true)
    (hb : v.bracketsOf ss = [v.kind 0]) (hs : s.brackets = [.mark m]) : Turns v s ss :=
  ⟨hn, fun st => by rw [hb, hs, beq_iff_eq.1 h]⟩

theorem turns_one (h : (v.kind 0).isPlain = true) (hn : nestsBehindTake ss = true)
    (hb : ∀ st, nest st (v.bracketsOf ss) = nest st (v.kind 0 :: s.brackets)) : Turns v s ss :=
  ⟨hn, fun st => by rw [hb, nest_plain h]⟩

theorem turns_two (h : (v.kind 0).isPlain = true) (h' : (v.kind 1).isPlain = true)
    (hn : nestsBehindTake ss = true)
    (hb : ∀ st, nest st (v.bracketsOf ss) = nest st (v.kind 0 :: v.kind 1 :: s.brackets)) :
    Turns v s ss :=
  ⟨hn, fun st => by rw [hb, nest_plain h, nest_plain h']⟩

/-- A bracket that is closed by what follows. -/
theorem turns_pair {b : Bracket} {l : Kind} (hk : (v.kind 0).opened? = some b)
    (hl : l.opened? = none ∧ l.closed? = some b) (hn : nestsBehindTake ss = true)
    (hb : v.bracketsOf ss = v.kind 0 :: l :: s.brackets) : Turns v s ss :=
  ⟨hn, fun st => by simp [hb, nest, nestOne, hk, hl]⟩

end Turns

/-! ## Parts -/

section Parts

variable {v : Lookahead}

open Lookahead

theorem TypePart.turns (p : TypePart) : Turns v (.typ p) (p.expand v) := by
  cases p with
  | type | list => exact ⟨rfl, fun _ => rfl⟩
  | name =>
    simp only [expand]
    split
    · exact turns_one (isPlain_of_isTypeName ‹_›) rfl fun _ => rfl
    · exact ⟨rfl, fun _ => rfl⟩
  | arguments | moreTypes =>
    simp only [expand]
    split
    · exact turns_one (isPlain_of_mark ‹_› rfl) rfl fun _ => rfl
    · exact ⟨rfl, fun _ => rfl⟩
  | dottedNames =>
    simp only [expand]
    split
    · rename_i h
      exact turns_one (isPlain_of_mark (Bool.and_eq_true_iff.1 h).1 rfl) rfl fun _ => rfl
    · exact ⟨rfl, fun _ => rfl⟩
  | dimensions =>
    simp only [expand, atMark, Bool.and_eq_true, beq_iff_eq]
    split
    · rename_i h
      refine ⟨rfl, fun st => ?_⟩
      simp [bracketsOf, kinds, List.range_succ, h, nest, nestOne, Kind.opened?, Kind.closed?,
        Step.brackets]
    · exact ⟨rfl, fun _ => rfl⟩

theorem turns_initializer (h : v.atMark .lBrace = true) {s : Step} (hs : s.brackets = [])
    (mark : Nat) : Turns v s (initializerSteps mark) :=
  turns_pair (b := .curly) (l := .mark .rBrace) (by rw [beq_iff_eq.1 h]; rfl) ⟨rfl, rfl⟩ rfl
    (by rw [hs]; rfl)

theorem turns_bound (h : v.atMark .colon = true) {s : Step} (hs : s.brackets = []) :
    Turns v s boundSteps :=
  turns_one (isPlain_of_mark h rfl) rfl fun _ => by rw [hs]; rfl

theorem turns_call (h : (v.kind 0).isPlain = true) {s : Step} (hs : s.brackets = []) :
    Turns v s callSteps :=
  turns_one h rfl fun _ => by rw [hs]; rfl

/-- An opening mark comes next. -/
theorem opened_of_mark {m : Mark} {b : Bracket} (h : v.atMark m = true)
    (hm : (Kind.mark m).opened? = some b) : (v.kind 0).opened? = some b := by
  rw [beq_iff_eq.1 h, hm]

theorem turns_unary (v : Lookahead) : Turns v (.expr .unary) (unarySteps v) := by
  unfold unarySteps
  split
  · exact turns_one (by simp [*, Kind.isPlain, Kind.opened?, Kind.closed?]) rfl fun _ => rfl
  · exact turns_one (by simp [*, Kind.isPlain, Kind.opened?, Kind.closed?]) rfl fun _ => rfl
  · exact turns_one (by simp [*, Kind.isPlain, Kind.opened?, Kind.closed?]) rfl fun _ => rfl
  · exact turns_one (by simp [*, Kind.isPlain, Kind.opened?, Kind.closed?]) rfl fun _ => rfl
  · exact turns_one (by simp [*, Kind.isPlain, Kind.opened?, Kind.closed?]) rfl fun _ => rfl
  · exact turns_one (by simp [*, Kind.isPlain, Kind.opened?, Kind.closed?]) rfl fun _ => rfl
  · split
    · rename_i hk _
      exact turns_pair (l := .mark .rParen) (by rw [hk]; rfl) ⟨rfl, rfl⟩ rfl rfl
    · exact ⟨rfl, fun _ => rfl⟩
  · exact ⟨rfl, fun _ => rfl⟩

theorem turns_primary (v : Lookahead) (mark : Nat) :
    Turns v (.expr .primary) (ExprPart.primary.expand v mark) := by
  have hplain : (∃ k, v.atKeyword k = true) ∨ v.isTypeName 0 = true →
      (v.kind 0).isPlain = true := by
    rintro (⟨k, h⟩ | h)
    · exact isPlain_of_keyword h
    · exact isPlain_of_isTypeName h
  refine primarySteps_cases_ahead (P := fun ss => Turns v (.expr .primary)
    (Step.start .primaryExpression :: ss ++ [Step.finish])) v
    ?call ?word ?literal ?group ?creation ?query ?search ?type ?none
  case call | word => exact fun h => turns_one (hplain h) rfl fun _ => rfl
  case literal | type | none => exact ⟨rfl, fun _ => rfl⟩
  case group => exact fun h => turns_pair (l := .mark .rParen) (opened_of_mark h rfl) ⟨rfl, rfl⟩ rfl rfl
  case creation => exact fun h => turns_one (isPlain_of_keyword h) rfl fun _ => rfl
  case query | search =>
    exact fun h _ => turns_pair (l := .mark .rBrack) (opened_of_mark h rfl) ⟨rfl, rfl⟩ rfl rfl

theorem turns_operators (v : Lookahead) (level m mark : Nat) :
    Turns v (.expr (.operators level m)) (ExprPart.expand v mark (.operators level m)) := by
  simp only [ExprPart.expand]
  split
  · rename_i r n h
    have hr : (rightOperand r level).nests = true ∧ (rightOperand r level).brackets = [] := by
      unfold rightOperand
      split <;> exact ⟨rfl, rfl⟩
    refine ⟨?_, fun st => ?_⟩
    · simp [nestsBehindTake, hr.1, Step.nests]
    · have hb : v.bracketsOf [.wrap m r, .take n, rightOperand r level, .finish,
          .expr (.operators level m)] = v.kinds n ++ [] := by
        simp [bracketsOf, hr.2, Step.brackets]
      rw [hb, nest_plains]
      · rfl
      · simp only [kinds, List.mem_map, List.mem_range]
        rintro _ ⟨i, hi, rfl⟩
        exact isPlain_of_operator h hi
  · exact ⟨rfl, fun _ => rfl⟩

theorem ExprPart.turns (hs : v.stream.Spelled) (p : ExprPart) (mark : Nat) :
    Turns v (.expr p) (p.expand v mark) := by
  cases p with
  | expression | conditional | operand | arguments | list | creator => exact ⟨rfl, fun _ => rfl⟩
  | assignment m =>
    simp only [expand]
    split
    · exact turns_one (Kind.isPlain_of_isAssignment ‹_›) rfl fun _ => rfl
    · exact ⟨rfl, fun _ => rfl⟩
  | alternatives m =>
    simp only [expand]
    split
    · exact turns_one (isPlain_of_mark ‹_› rfl) rfl fun _ => rfl
    · exact ⟨rfl, fun _ => rfl⟩
  | binary level =>
    simp only [expand]
    split <;> exact ⟨rfl, fun _ => rfl⟩
  | operators level m => exact turns_operators v level m mark
  | unary => exact turns_unary v
  | suffixes m =>
    simp only [expand]
    split
    · rename_i h
      rcases Bool.or_eq_true_iff.1 h with h | h
      all_goals exact turns_one (isPlain_of_mark h rfl) rfl fun _ => rfl
    · split
      · exact turns_pair (l := .mark .rBrack) (opened_of_mark ‹_› rfl) ⟨rfl, rfl⟩ rfl rfl
      · split
        · rename_i h
          rcases Bool.or_eq_true_iff.1 h with h | h
          all_goals exact turns_one (isPlain_of_mark h rfl) rfl fun _ => rfl
        · exact ⟨rfl, fun _ => rfl⟩
  | member =>
    simp only [expand]
    split
    · rename_i h
      exact turns_call (isPlain_of_isWord hs (Bool.and_eq_true_iff.1 h).1) rfl
    · exact ⟨rfl, fun _ => rfl⟩
  | primary => exact turns_primary v mark
  | literal =>
    simp only [expand]
    split
    · exact turns_one (Kind.isPlain_of_isLiteral ‹_›) rfl fun _ => rfl
    · exact ⟨rfl, fun _ => rfl⟩
  | argumentList =>
    simp only [expand]
    split <;> exact ⟨rfl, fun _ => rfl⟩
  | moreExpressions | mapEntries =>
    simp only [expand]
    split
    · exact turns_one (isPlain_of_mark ‹_› rfl) rfl fun _ => rfl
    · exact ⟨rfl, fun _ => rfl⟩
  | creatorForm =>
    simp only [expand]
    repeat' split
    · exact ⟨rfl, fun _ => rfl⟩
    · have hk : (v.kind 0).opened? = some .square := opened_of_mark ‹v.atMark .lBrack = true› rfl
      exact turns_pair (l := .mark .rBrack) hk ⟨rfl, rfl⟩ rfl rfl
    · exact turns_initializer ‹_› rfl mark
    · exact ⟨rfl, fun _ => rfl⟩
  | arraySize =>
    simp only [expand]
    split
    · exact turns_closing ‹_› rfl rfl rfl
    · exact ⟨rfl, fun _ => rfl⟩
  | arrayValues =>
    simp only [expand]
    split
    · exact turns_initializer ‹_› rfl mark
    · exact ⟨rfl, fun _ => rfl⟩
  | initializerValues m =>
    simp only [expand]
    split
    · exact turns_closing ‹_› rfl rfl rfl
    · exact ⟨rfl, fun _ => rfl⟩
  | initializerRest m =>
    simp only [expand]
    split
    · exact turns_one (isPlain_of_mark ‹_› rfl) rfl fun _ => rfl
    · exact ⟨rfl, fun _ => rfl⟩

theorem turns_clause (hs : v.stream.Spelled) {p : QueryPart} {w : String} {ss : List Step}
    (hw : w ≠ "") (h : (v.kind 0).isPlain = true → Turns v (.soql p) ss)
    (hn : Turns v (.soql p) []) : Turns v (.soql p) (clause v w ss) := by
  unfold clause
  split
  · exact h (isPlain_of_atWord hs ‹_› hw)
  · exact hn

theorem turns_value (v : Lookahead) : Turns v (.soql .value) (QueryPart.value.expand v) := by
  simp only [QueryPart.expand, valueSteps]
  split
  · exact turns_one (isPlain_of_mark ‹_› rfl) rfl fun _ => rfl
  split
  · exact turns_pair (l := .mark .rParen) (opened_of_mark ‹_› rfl) ⟨rfl, rfl⟩ rfl rfl
  split
  · rename_i h
    obtain ⟨hsign, hl⟩ := Bool.and_eq_true_iff.1 h
    have hk : (v.kind 0).isPlain = true := by
      rcases Bool.or_eq_true_iff.1 hsign with h | h <;> exact isPlain_of_mark h rfl
    exact turns_two hk (Kind.isPlain_of_isLiteral hl) rfl fun _ => rfl
  split
  · exact turns_one (Kind.isPlain_of_isLiteral ‹_›) rfl fun _ => rfl
  split
  · exact turns_one (isPlain_of_isIdentifier ‹_›) rfl fun _ => rfl
  · exact ⟨rfl, fun _ => rfl⟩

/-- Searches are left out: what stands between the braces of a term and behind it is
read as it comes. -/
theorem QueryPart.turns (hs : v.stream.Spelled) (p : QueryPart) (hne : p ≠ .search)
    (hp : (Step.soql p).nests = true) : Turns v (.soql p) (p.expand v) := by
  have hword : ∀ {ws : List String}, v.atAnyWord ws = true → "" ∉ ws →
      (v.kind 0).isPlain = true := fun h hw => isPlain_of_wordIn hs (List.contains_iff_mem.1 h) hw
  cases p with
  | search => exact absurd rfl hne
  | query | source | fieldName | fieldList | condition | comparison | category | orderEntry =>
    exact ⟨rfl, fun _ => rfl⟩
  | selectEntry =>
    simp only [expand, selectEntrySteps]
    split
    · exact turns_pair (l := .mark .rParen) (opened_of_mark ‹_› rfl) ⟨rfl, rfl⟩ rfl rfl
    · split
      · exact turns_one (isPlain_of_atWord hs ‹_› (by decide)) rfl fun _ => rfl
      · exact ⟨rfl, fun _ => rfl⟩
  | moreSelectEntries | moreSources | moreFields | moreFunctions | moreValues
  | moreOrderEntries | moreUsages =>
    simp only [expand]
    split
    · exact turns_one (isPlain_of_mark ‹_› rfl) rfl fun _ => rfl
    · exact ⟨rfl, fun _ => rfl⟩
  | typeCases =>
    simp only [expand]
    split
    · exact turns_one (isPlain_of_atWord hs ‹_› (by decide)) rfl fun _ => rfl
    · split
      · exact turns_one (isPlain_of_atWord hs ‹_› (by decide)) rfl fun _ => rfl
      · exact ⟨rfl, fun _ => rfl⟩
  | «alias» =>
    simp only [expand]
    split
    · rename_i h
      exact turns_one (isPlain_of_isIdentifier (Bool.and_eq_true_iff.1 h).1) rfl fun _ => rfl
    · exact ⟨rfl, fun _ => rfl⟩
  | dottedWords =>
    simp only [expand]
    split
    · rename_i h
      obtain ⟨hd, hw⟩ := Bool.and_eq_true_iff.1 h
      exact turns_two (isPlain_of_mark hd rfl) (isPlain_of_isWord hs hw) rfl fun _ => rfl
    · exact ⟨rfl, fun _ => rfl⟩
  | function =>
    simp only [expand, Bool.and_eq_true, beq_iff_eq]
    split
    · rename_i h
      refine ⟨rfl, fun st => ?_⟩
      have hk : nest st [v.kind 0, v.kind 1, .mark .rParen] = some st := by
        rw [nest_plain (isPlain_of_isWord hs h.1), h.2]
        rfl
      exact hk
    · exact ⟨rfl, fun _ => rfl⟩
  | functionArguments =>
    simp only [expand]
    split <;> exact ⟨rfl, fun _ => rfl⟩
  | scope | filter | negation | access | moreCategories | grouping | having | ordering | nulls
  | limit | offset | allRows =>
    exact turns_clause hs (by decide) (fun h => turns_one h rfl fun _ => rfl) ⟨rfl, fun _ => rfl⟩
  | conditionOperand =>
    simp only [expand]
    split
    · exact turns_pair (l := .mark .rParen) (opened_of_mark ‹_› rfl) ⟨rfl, rfl⟩ rfl rfl
    · exact ⟨rfl, fun _ => rfl⟩
  | moreConditions | direction | usageClauses =>
    simp only [expand]
    split
    · exact turns_one (hword ‹_› (by decide)) rfl fun _ => rfl
    · exact ⟨rfl, fun _ => rfl⟩
  | comparisonOperator =>
    simp only [expand]
    split
    · exact turns_one (Kind.isPlain_of_comparesFields ‹_›) rfl fun _ => rfl
    · split
      · rename_i h
        obtain ⟨hn, hi⟩ := Bool.and_eq_true_iff.1 h
        have hin : v.word 1 ≠ "" := by
          rw [beq_iff_eq.1 hi]
          decide
        exact turns_two (isPlain_of_atWord hs hn (by decide)) (isPlain_of_word hs hin)
          rfl fun _ => rfl
      · split
        · exact turns_one (hword ‹_› (by decide)) rfl fun _ => rfl
        · exact ⟨rfl, fun _ => rfl⟩
  | value => exact turns_value v
  | valueList =>
    simp only [expand]
    split <;> exact ⟨rfl, fun _ => rfl⟩
  | dateCount =>
    simp only [expand]
    split
    · rename_i h
      obtain ⟨hc, hl⟩ := Bool.and_eq_true_iff.1 h
      exact turns_two (isPlain_of_mark hc rfl) (Kind.isPlain_of_isLiteral hl) rfl fun _ => rfl
    · exact ⟨rfl, fun _ => rfl⟩
  | accessFilter =>
    simp only [expand]
    split
    · exact turns_one (isPlain_of_atWord hs ‹_› (by decide)) rfl fun _ => rfl
    · exact ⟨rfl, fun _ => rfl⟩
  | nullsPlace =>
    simp only [expand]
    split
    · exact turns_one (hword ‹_› (by decide)) rfl fun _ => rfl
    · exact ⟨rfl, fun _ => rfl⟩
  | count =>
    simp only [expand]
    split
    · exact turns_bound ‹_› rfl
    · exact ⟨rfl, fun _ => rfl⟩
  | usage =>
    simp only [expand]
    split <;> exact ⟨rfl, fun _ => rfl⟩
  | searchTerm | searchBraces | searchRest depth => cases hp

theorem turns_untilBrace {s item again : Step} (hb : s.brackets = [.mark .rBrace])
    (ha : again.nests = true ∧ again.brackets = [.mark .rBrace])
    (h : Turns v s [item, .progress v.position, again]) : Turns v s (untilBrace v item again) := by
  unfold untilBrace
  split
  · exact ⟨rfl, fun st => by rw [hb]; rfl⟩
  split
  · refine turns_one (isPlain_of_mark ‹_› rfl) ?_ fun _ => ?_
    · simp [nestsBehindTake, ha.1]
    · simp [bracketsOf, kinds, ha.2, hb]
  · exact h

theorem turns_statement (v : Lookahead) :
    Turns v (.stmt .statement) (StmtPart.statement.expand v) := by
  simp only [StmtPart.expand, statementSteps]
  split
  case h_1 => exact ⟨rfl, fun _ => rfl⟩
  case h_13 =>
    split
    · rename_i hk
      exact turns_two (by rw [hk.1]; rfl) (by rw [hk.2]; rfl) rfl fun _ => rfl
    split
    · rename_i hk
      unfold dmlSteps
      split <;> exact turns_one (Kind.isPlain_of_isDml hk) rfl fun _ => rfl
    split
    · exact ⟨rfl, fun _ => rfl⟩
    · split <;> exact ⟨rfl, fun _ => rfl⟩
  all_goals
    rename_i hk
    exact turns_one (by rw [hk]; rfl) rfl fun _ => rfl

theorem StmtPart.turns (hs : v.stream.Spelled) (p : StmtPart) :
    Turns v (.stmt p) (p.expand v) := by
  cases p with
  | block | localVariables | parenthesized => exact ⟨rfl, fun _ => rfl⟩
  | blockStatements => exact turns_untilBrace rfl ⟨rfl, rfl⟩ ⟨rfl, fun _ => rfl⟩
  | statement => exact turns_statement v
  | loopBody =>
    simp only [expand]
    split
    · exact turns_one (isPlain_of_mark ‹_› rfl) rfl fun _ => rfl
    · exact ⟨rfl, fun _ => rfl⟩
  | elseBranch =>
    simp only [expand]
    split
    · exact turns_one (isPlain_of_keyword ‹_›) rfl fun _ => rfl
    · exact ⟨rfl, fun _ => rfl⟩
  | whenClauses | moreWhenClauses | loopStart | loopCondition | loopUpdate | handlers
  | returnValue | upsertKey | runAsUsers =>
    simp only [expand]
    repeat' split
    all_goals exact ⟨rfl, fun _ => rfl⟩
  | whenValue =>
    simp only [expand, whenValueSteps]
    split
    · exact turns_one (isPlain_of_keyword ‹_›) rfl fun _ => rfl
    · split
      · rename_i h
        obtain ⟨h0, h1⟩ := Bool.and_eq_true_iff.1 h
        exact turns_two (isPlain_of_isIdentifier h0) (isPlain_of_isIdentifier h1) rfl fun _ => rfl
      · exact ⟨rfl, fun _ => rfl⟩
  | whenLiteral =>
    simp only [expand]
    split
    · exact turns_pair (l := .mark .rParen) (opened_of_mark ‹_› rfl) ⟨rfl, rfl⟩ rfl rfl
    · exact ⟨rfl, fun _ => rfl⟩
  | moreWhenLiterals =>
    simp only [expand]
    split
    · exact turns_one (isPlain_of_mark ‹_› rfl) rfl fun _ => rfl
    · exact ⟨rfl, fun _ => rfl⟩
  | whenAtom =>
    simp only [expand]
    split
    · rename_i h
      rcases Bool.or_eq_true_iff.1 h with h | h
      · exact turns_one (Kind.isPlain_of_isLiteral h) rfl fun _ => rfl
      · exact turns_one (isPlain_of_isIdentifier h) rfl fun _ => rfl
    · exact ⟨rfl, fun _ => rfl⟩
  | loopControl =>
    simp only [expand, loopControlSteps]
    split <;> exact ⟨rfl, fun _ => rfl⟩
  | moreHandlers =>
    simp only [expand]
    split
    · exact turns_one (isPlain_of_keyword ‹_›) rfl fun _ => rfl
    · split
      · exact turns_one (isPlain_of_keyword ‹_›) rfl fun _ => rfl
      · exact ⟨rfl, fun _ => rfl⟩
  | accessLevel =>
    simp only [expand]
    split
    · rename_i h
      simp only [Bool.and_eq_true, Bool.or_eq_true, beq_iff_eq] at h
      have hlevel : v.word 1 ≠ "" := by
        rcases h.1.2 with h | h
        all_goals
          rw [h]
          decide
      have hw := isPlain_of_atWord hs (w := "as") h.1.1 (by decide)
      exact turns_two hw (isPlain_of_word hs hlevel) rfl fun _ => rfl
    · exact ⟨rfl, fun _ => rfl⟩

theorem turns_member (v : Lookahead) : Turns v (.decl .member) (memberSteps v) := by
  unfold memberSteps
  split
  case h_4 => exact ⟨rfl, fun _ => rfl⟩
  case h_5 =>
    split
    · rename_i h
      exact turns_one (isPlain_of_isIdentifier (Bool.and_eq_true_iff.1 h).1) rfl fun _ => rfl
    · repeat' split
      all_goals exact ⟨rfl, fun _ => rfl⟩
  all_goals
    rename_i hk
    exact turns_one (by rw [hk]; rfl) rfl fun _ => rfl

theorem turns_declaredType (v : Lookahead) :
    Turns v (.decl .declaredType) (DeclPart.declaredType.expand v) := by
  simp only [DeclPart.expand]
  split
  case h_4 => exact ⟨rfl, fun _ => rfl⟩
  all_goals
    rename_i hk
    exact turns_one (by rw [hk]; rfl) rfl fun _ => rfl

theorem isPlain_of_modifier {n : Nat} (h : v.modifierLength 0 = n + 1) :
    (v.kind 0).isPlain = true ∧ (n = 0 ∨ n = 1 ∧ (v.kind 1).isPlain = true) := by
  unfold modifierLength at h
  split at h
  case h_4 =>
    split at h
    · rename_i hm
      exact ⟨Kind.isPlain_of_isModifier hm, .inl (by omega)⟩
    · cases h
  all_goals
    rename_i hk
    split at h
    · rename_i hs
      refine ⟨by rw [hk]; rfl, .inr ⟨by omega, ?_⟩⟩
      rw [beq_iff_eq.1 hs]
      rfl
    · cases h

theorem turns_modifiers (v : Lookahead) :
    Turns v (.decl .modifiers) (DeclPart.modifiers.expand v) := by
  simp only [DeclPart.expand]
  split
  · exact turns_one (isPlain_of_mark ‹_› rfl) rfl fun _ => rfl
  · split
    · exact ⟨rfl, fun _ => rfl⟩
    · rename_i n h
      obtain ⟨h0, rfl | ⟨rfl, h1⟩⟩ := isPlain_of_modifier h
      · exact turns_one h0 rfl fun _ => rfl
      · exact turns_two h0 h1 rfl fun _ => rfl

/-- A unit of members and statements is left out: it takes the end of the text as it
comes. -/
theorem DeclPart.turns (hs : v.stream.Spelled) (p : DeclPart) (hne : p ≠ .anonymousUnit) :
    Turns v (.decl p) (p.expand v) := by
  cases p with
  | anonymousUnit => exact absurd rfl hne
  | compilationUnit | triggerUnit | triggerCase | triggerBlock | declaration | qualifiedName
  | classBody | method | field | «variables» | «variable» | property | accessor | parameters
  | parameter | interfaceMethod => exact ⟨rfl, fun _ => rfl⟩
  | anonymousMembers =>
    simp only [expand]
    split
    · exact ⟨rfl, fun _ => rfl⟩
    · split
      · exact turns_one (isPlain_of_mark ‹_› rfl) rfl fun _ => rfl
      · exact ⟨rfl, fun _ => rfl⟩
  | moreTriggerCases | moreVariables | moreParameters | moreConstants | variableValue
  | accessorBody =>
    simp only [expand]
    split
    · exact turns_one (isPlain_of_mark ‹_› rfl) rfl fun _ => rfl
    · exact ⟨rfl, fun _ => rfl⟩
  | triggerMoment | accessorKind =>
    simp only [expand]
    split
    · rename_i h
      rcases Bool.or_eq_true_iff.1 h with h | h
      all_goals exact turns_one (isPlain_of_keyword h) rfl fun _ => rfl
    · exact ⟨rfl, fun _ => rfl⟩
  | triggerEvent =>
    simp only [expand]
    split
    · rename_i h
      exact turns_one (Kind.isPlain_of_isDml (Bool.and_eq_true_iff.1 h).1) rfl fun _ => rfl
    · exact ⟨rfl, fun _ => rfl⟩
  | triggerMembers | classMembers | interfaceMembers =>
    exact turns_untilBrace rfl ⟨rfl, rfl⟩ ⟨rfl, fun _ => rfl⟩
  | blockMember r =>
    simp only [expand]
    split <;> exact ⟨rfl, fun _ => rfl⟩
  | declaredType => exact turns_declaredType v
  | modifiers => exact turns_modifiers v
  | annotationArguments =>
    simp only [expand]
    split
    · exact turns_pair (l := .mark .rParen) (opened_of_mark ‹_› rfl) ⟨rfl, rfl⟩ rfl rfl
    · exact ⟨rfl, fun _ => rfl⟩
  | annotationValues =>
    simp only [expand, annotationValueSteps]
    split
    · exact ⟨rfl, fun _ => rfl⟩
    · split
      · rename_i h
        simp only [Bool.and_eq_true, beq_iff_eq] at h
        exact turns_two (isPlain_of_isWord hs h.1) (by rw [h.2]; rfl) rfl fun _ => rfl
      · exact ⟨rfl, fun _ => rfl⟩
  | elementValue =>
    simp only [expand]
    split
    · exact turns_pair (l := .mark .rBrace) (opened_of_mark ‹_› rfl) ⟨rfl, rfl⟩ rfl rfl
    · exact ⟨rfl, fun _ => rfl⟩
  | elementValues | accessors | methodBody | parameterList | enumConstants =>
    simp only [expand]
    split <;> exact ⟨rfl, fun _ => rfl⟩
  | superclass | interfaces | superinterfaces | resultType =>
    simp only [expand]
    split
    · exact turns_one (isPlain_of_keyword ‹_›) rfl fun _ => rfl
    · exact ⟨rfl, fun _ => rfl⟩
  | classMember =>
    simp only [expand, classMemberSteps]
    split
    · rename_i h
      exact turns_one (isPlain_of_keyword (Bool.and_eq_true_iff.1 h).1) rfl fun _ => rfl
    · split <;> exact ⟨rfl, fun _ => rfl⟩
  | member => exact turns_member v

end Parts

end ApexSyntax
