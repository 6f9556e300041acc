-- Every part adds trees that its symbols derive, and each node that it makes fits
-- the productions. The induction is over the run; a part that stands behind its
-- first operand says of which level that operand is, before it and behind it.
import ApexSyntax.Proofs.Parser.Productions
import ApexSyntax.Proofs.Parser.Recovery
import ApexSyntax.Proofs.Parser.Shape

namespace ApexSyntax

/-! ## Symbols of the steps -/

/-- The tokens ahead, one by one. -/
def Lookahead.symbols (v : Lookahead) (n : Nat) : List Symbol :=
  (List.range n).map fun i => .token (· == v.nth i)

/-- What a part of an expression adds, on every text. -/
def ExprPart.symbols : ExprPart → List Symbol
  | .expression => [.anyExpression]
  | .conditional => [.expression (-1)]
  | .binary level => [.expression (min level binaryLevels : Nat)]
  | .unary => [.expression 11]
  | .operand | .primary => [.expression 12]
  | .list => Symbol.separated .anyExpression
  | .moreExpressions => [.many [.mark .comma, .anyExpression]]
  | _ => [.anything]

/-- What a part of a statement adds when nothing is reported. -/
def StmtPart.symbols : StmtPart → List Symbol
  | .block => [.node .block]
  | .blockStatements => [.many [.oneOf [[.mark .semi], [.node .statement]]], .mark .rBrace]
  | .statement => [.node .statement]
  | .loopBody => [loopBodySymbol]
  | .localVariables => [.node .localVariableDeclaration]
  | .parenthesized => [.node .parExpression]
  | .elseBranch => [.optional [.keyword .elseKw, .node .statement]]
  | .whenClauses => [.node .whenControl, .many [.node .whenControl], .mark .rBrace]
  | .moreWhenClauses => [.many [.node .whenControl], .mark .rBrace]
  | .whenValue => [.node .whenValue]
  | .whenLiteral => [.node .whenLiteral]
  | .moreWhenLiterals => [.many [.mark .comma, .node .whenLiteral]]
  | .whenAtom => [.token fun t => t.kind.isLiteral || t.isIdentifier]
  | .loopControl => [.node .forControl]
  | .loopStart => [loopStartSymbol]
  | .loopCondition | .returnValue => [.optional [.anyExpression]]
  | .loopUpdate | .runAsUsers => [.optional (Symbol.separated .anyExpression)]
  | .handlers => [handlersSymbol]
  | .moreHandlers => [.many [.node .catchClause], .optional [.node .finallyBlock]]
  | .accessLevel => [.optional [.node .accessLevel]]
  | .upsertKey => [.optional [.node .qualifiedName]]

/-- What those parts of declarations add that stand in statements, when nothing is
reported. -/
def DeclPart.symbols : DeclPart → List Symbol
  | .modifiers => [modifiersSymbol]
  | .variables => Symbol.separated (.node .variableDeclarator)
  | .variable => [.node .variableDeclarator]
  | .moreVariables => [.many [.mark .comma, .node .variableDeclarator]]
  | .qualifiedName => [.node .qualifiedName]
  | _ => [.anything]

namespace Step

/-- What a step adds, on every text. -/
def firm : Step → List Symbol
  | typ .type => [.node .typeRef]
  | expr p => p.symbols
  | _ => [.anything]

/-- What a step adds when nothing is reported. A complaint never comes then. -/
def calm : Step → List Symbol
  | takeIf m => [.optional [.mark m]]
  | progress _ => []
  | expect e => [.expected e]
  | expectThen e next => .expected e :: next.calm
  | complain _ => [.oneOf []]
  | typ .type => [.node .typeRef]
  | expr p => p.symbols
  | stmt p => p.symbols
  | decl p => p.symbols
  | _ => [.anything]

/-- What a step adds, by the tokens ahead. -/
def firmAt (v : Lookahead) : Step → List Symbol
  | take n => v.symbols n
  | s => s.firm

/-- What a step adds when nothing is reported, by the tokens ahead. -/
def calmAt (v : Lookahead) : Step → List Symbol
  | take n => v.symbols n
  | stmt .moreWhenClauses =>
    if v.atMark .rBrace then [.mark .rBrace] else StmtPart.whenClauses.symbols
  | stmt .moreHandlers =>
    if v.atKeyword .catchKw || v.atKeyword .finallyKw then [handlersSymbol] else []
  | s => s.calm

/-- The levels of what stands at the mark of a step, before it and behind it. -/
def levels : Step → Int × Int
  | expr (.assignment _) => (-1, -2)
  | expr (.alternatives _) => (0, -1)
  | expr (.operators level _) => (level, level)
  | _ => (12, 12)

end Step

/-- Nodes of the rule may have any children. -/
def Rule.isFree (r : Rule) : Bool :=
  r.expressionProduction?.isNone && r.statementProduction?.isNone

/-- The step opens only nodes that may have any children. -/
def Step.opensFree : Step → Bool
  | start r | wrap _ r | decl (.blockMember r) => r.isFree
  | expectThen _ next => next.opensFree
  | _ => true

/-! ## Trees that fit -/

/-- The children of a node fit its rule. Without a report, so do those of the
statements. -/
def Fits (calm : Bool) (r : Rule) (ts : List Tree) : Prop :=
  DerivesExpression r ts ∧ (calm = true → DerivesStatement r ts)

theorem fits_of_isFree {r : Rule} (h : r.isFree = true) (calm : Bool) (ts : List Tree) :
    Fits calm r ts := by
  rw [Rule.isFree, Bool.and_eq_true, Option.isNone_iff_eq_none, Option.isNone_iff_eq_none] at h
  refine ⟨fun ss hs => ?_, fun _ ss hs => ?_⟩
  · rw [h.1] at hs
    cases hs
  · rw [h.2] at hs
    cases hs

theorem fits_statement {r : Rule} {ss : List Symbol} {ts : List Tree} {calm : Bool}
    (he : r.expressionProduction? = none) (hs : r.statementProduction? = some ss)
    (h : calm = true → Derives ss ts) : Fits calm r ts := by
  refine ⟨fun us hu => ?_, fun hc us hu => ?_⟩
  · rw [he] at hu
    cases hu
  · rw [hs] at hu
    cases hu
    exact h hc

/-! ## Derivations -/

namespace Derives

variable {ss : List Symbol} {ts : List Tree}

theorem anyTrees (ts : List Tree) : Derives [.anything] ts := by
  simpa using anything ts .nil

/-- The first token is of every class that it belongs to. -/
theorem first {accepts : Token → Bool} {t : Token} (ha : accepts t = true)
    (h : Derives (.token (· == t) :: ss) ts) : Derives (.token accepts :: ss) ts := by
  cases h with
  | token ht h =>
    rw [beq_iff_eq] at ht
    exact .token (ht ▸ ha) h

theorem leave {item : List Symbol} (h : Derives ss ts) : Derives (.optional item :: ss) ts :=
  .oneOf List.mem_cons_self h

theorem use {item : List Symbol} (h : Derives (item ++ ss) ts) :
    Derives (.optional item :: ss) ts :=
  .oneOf (List.mem_cons_of_mem _ List.mem_cons_self) h

/-- A node of an expression rule is an expression of its level. -/
theorem level {r : Rule} {k level : Int} (hr : r.level? = some k) (hk : level ≤ k)
    (h : Derives [.node r] ts) : Derives [.expression level] ts := by
  cases h with
  | node h => exact .expression hr hk h

theorem looser {k level : Int} (hk : level ≤ k) (h : Derives (.expression k :: ss) ts) :
    Derives (.expression level :: ss) ts := by
  cases h with
  | expression hr hk' h => exact .expression hr (Int.le_trans hk hk') h

end Derives

/-! ## Tokens ahead -/

section Ahead

variable {v : Lookahead}

theorem accepts_of_kind {k : Kind} {n : Nat} (h : v.kind n = k) :
    (Expected.kind k).accepts (v.nth n) = true := beq_iff_eq.2 h

theorem accepts_of_atMark {m : Mark} (h : v.atMark m = true) :
    (Expected.mark m).accepts (v.nth 0) = true := h

theorem accepts_of_atKeyword {k : Keyword} (h : v.atKeyword k = true) :
    (Expected.keyword k).accepts (v.nth 0) = true := h

/-- The tokens ahead are one way to write some symbols. -/
def Lookahead.Spells (v : Lookahead) (n : Nat) (o : List Symbol) : Prop :=
  ∀ ss ts, Derives (v.symbols n ++ ss) ts → Derives (o ++ ss) ts

theorem spells_one {accepts : Token → Bool} (h : accepts (v.nth 0) = true) :
    v.Spells 1 [.token accepts] :=
  fun _ _ hd => hd.first h

/-- One token is one of several marks. -/
theorem spells_oneOf {m : Mark} {as : List (List Symbol)} (h : v.kind 0 = .mark m)
    (hm : [.mark m] ∈ as) : v.Spells 1 [.oneOf as] :=
  fun _ _ hd => .oneOf hm (hd.first (accepts_of_kind h))

theorem spells_either {m m' : Mark} (h : (v.atMark m || v.atMark m') = true) :
    v.Spells 1 [.oneOf [[.mark m], [.mark m']]] := by
  rw [Bool.or_eq_true] at h
  rcases h with h | h
  · exact spells_oneOf (beq_iff_eq.1 h) List.mem_cons_self
  · exact spells_oneOf (beq_iff_eq.1 h) (List.mem_cons_of_mem _ List.mem_cons_self)

theorem spells_two {a b : Token → Bool} (ha : a (v.nth 0) = true) (hb : b (v.nth 1) = true) :
    v.Spells 2 [.token a, .token b] := by
  intro ss ts hd
  cases hd.first ha with
  | token h0 h => exact .token h0 (h.first hb)

theorem spells_three {a b c : Token → Bool} (ha : a (v.nth 0) = true) (hb : b (v.nth 1) = true)
    (hc : c (v.nth 2) = true) : v.Spells 3 [.token a, .token b, .token c] := by
  intro ss ts hd
  cases hd.first ha with
  | token h0 h =>
    cases h.first hb with
    | token h1 h' => exact .token h0 (.token h1 (h'.first hc))

end Ahead

/-! ## Trees that are added -/

namespace Parser

variable {calm : Bool} {fs fs' gs gs' : List Symbol} {p p' q r : Parser}

/-- Trees that symbols derive are added, those for every text and, without a report,
those for a clean one. All nodes of the trees fit. -/
def Adds (calm : Bool) (fs gs : List Symbol) (p q : Parser) : Prop :=
  ∃ ts, q.tree = p.tree.addAll ts ∧ Derives fs ts ∧ (calm = true → Derives gs ts) ∧
    ∀ t ∈ ts, t.Everywhere (Fits calm)

namespace Adds

theorem nothing (h : q.tree = p.tree) : Adds calm [] [] p q :=
  ⟨[], h, .nil, fun _ => .nil, by simp⟩

theorem append (h : Adds calm fs gs p q) (h' : Adds calm fs' gs' q r) :
    Adds calm (fs ++ fs') (gs ++ gs') p r := by
  obtain ⟨ts, hq, hf, hg, ht⟩ := h
  obtain ⟨us, hr, hf', hg', hu⟩ := h'
  refine ⟨ts ++ us, ?_, hf.append hf', fun hc => (hg hc).append (hg' hc), ?_⟩
  · rw [hr, hq, Builder.addAll_append]
  · intro t htu
    rcases List.mem_append.1 htu with hm | hm
    · exact ht t hm
    · exact hu t hm

theorem mono (h : Adds calm fs gs p q) (hf : ∀ ts, Derives fs ts → Derives fs' ts)
    (hg : ∀ ts, Derives gs ts → Derives gs' ts) : Adds calm fs' gs' p q := by
  obtain ⟨ts, hq, hd, hc, ht⟩ := h
  exact ⟨ts, hq, hf ts hd, fun h => hg ts (hc h), ht⟩

/-- Whatever is added is some trees, on a text that may have errors. -/
theorem loosen (h : Adds calm fs gs p q) (hg : ∀ ts, Derives gs ts → Derives gs' ts) :
    Adds calm [.anything] gs' p q :=
  h.mono (fun ts _ => .anyTrees ts) hg

/-- Trees that fit are added, whatever they are. -/
theorem ofTrees {ts : List Tree} (hq : q.tree = p.tree.addAll ts)
    (ht : ∀ t ∈ ts, t.Everywhere (Fits calm)) : Adds calm [.anything] [.anything] p q :=
  ⟨ts, hq, .anyTrees ts, fun _ => .anyTrees ts, ht⟩

/-- A node that is opened, filled and closed is added when its children fit. -/
theorem node {rule : Rule} (hp : p'.tree = p.tree.start rule) (h : Adds calm fs gs p' q)
    (hr : r.tree = q.tree.finish)
    (hfit : ∀ ts, Derives fs ts → (calm = true → Derives gs ts) → Fits calm rule ts) :
    Adds calm [.node rule] [.node rule] p r := by
  obtain ⟨ts, hq, hf, hg, ht⟩ := h
  refine ⟨[.node rule ts], ?_, .node .nil, fun _ => .node .nil, ?_⟩
  · rw [hr, hq, hp, Builder.finish_addAll_start]
    rfl
  · intro t hm
    rw [List.mem_singleton.1 hm]
    exact .node (hfit ts hf hg) ht

end Adds

theorem lookahead_take (p : Parser) (i : Nat) :
    p.take.lookahead.nth i = p.lookahead.nth (i + 1) := by
  have h1 : p.take.lookahead.nth i = p.stream.nth (p.behind + i) := rfl
  have h2 : p.lookahead.nth (i + 1) = p.stream.nth (p.position + (i + 1)) := rfl
  rw [h1, h2]
  by_cases h : p.position < p.stream.visible.size
  · rw [behind_of_lt h, Nat.add_assoc, Nat.add_comm 1]
  · rw [behind_of_eof ((isEof_current_iff p).2 (by omega)), TokenStream.nth_of_le (by omega),
      TokenStream.nth_of_le (by omega)]

/-- The tokens that are taken are those ahead. -/
theorem tree_takeMany (p : Parser) (n : Nat) :
    (p.takeMany n).tree =
      p.tree.addAll ((List.range n).map fun i => .token (p.lookahead.nth i)) := by
  induction n generalizing p with
  | zero => rfl
  | succ n ih =>
    have h : (p.takeMany (n + 1)).tree = (p.take.takeMany n).tree := rfl
    rw [h, ih, tree_take, List.range_succ_eq_map, List.map_cons, List.map_map]
    simp only [lookahead_take]
    rfl

theorem derives_symbols (v : Lookahead) (n : Nat) :
    Derives (v.symbols n) ((List.range n).map fun i => .token (v.nth i)) := by
  unfold Lookahead.symbols
  induction List.range n with
  | nil => exact .nil
  | cons i is ih => exact .token (beq_self_eq_true _) ih

theorem adds_takeMany (p : Parser) (n : Nat) :
    Adds calm (p.lookahead.symbols n) (p.lookahead.symbols n) p (p.takeMany n) := by
  refine ⟨_, tree_takeMany p n, derives_symbols _ n, fun _ => derives_symbols _ n, ?_⟩
  intro t ht
  obtain ⟨i, _, rfl⟩ := List.mem_map.1 ht
  exact .token _

theorem adds_take {accepts : Token → Bool} (h : accepts p.current = true) :
    Adds calm [.token accepts] [.token accepts] p p.take := by
  refine ⟨[.token p.current], rfl, .token h .nil, fun _ => .token h .nil, ?_⟩
  intro t ht
  rw [List.mem_singleton.1 ht]
  exact .token _

end Parser

end ApexSyntax
