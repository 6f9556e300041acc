-- What a part does to the tree. Most parts add finished trees, and leave all
-- nodes that were open before as they were; the rest of an operand or of a list
-- of values takes what stands in front of it into a new node.
import ApexSyntax.Proofs.Parser.Runs

namespace ApexSyntax

/-! ## Trees that are added -/

namespace Builder

/-- Adds some trees, one after the other. -/
def addAll (b : Builder) (ts : List Tree) : Builder := ts.foldl add b

@[simp] theorem addAll_nil (b : Builder) : b.addAll [] = b := rfl

@[simp] theorem addAll_append (b : Builder) (ts us : List Tree) :
    b.addAll (ts ++ us) = (b.addAll ts).addAll us := by
  simp [addAll]

theorem addAll_ground (ground : Array Tree) (ts : List Tree) :
    (⟨ground, []⟩ : Builder).addAll ts = ⟨ground ++ ts.toArray, []⟩ := by
  induction ts generalizing ground with
  | nil => simp
  | cons t ts ih =>
    have h := ih (ground.push t)
    simpa [addAll, add] using h

theorem addAll_frame (ground children : Array Tree) (r : Rule) (rest : List Frame)
    (ts : List Tree) :
    (⟨ground, ⟨r, children⟩ :: rest⟩ : Builder).addAll ts =
      ⟨ground, ⟨r, children ++ ts.toArray⟩ :: rest⟩ := by
  induction ts generalizing children with
  | nil => simp
  | cons t ts ih =>
    have h := ih (children.push t)
    simpa [addAll, add] using h

/-- A node that is opened, filled and closed is added as a whole. -/
theorem finish_addAll_start (b : Builder) (r : Rule) (ts : List Tree) :
    ((b.start r).addAll ts).finish = b.add (.node r ts) := by
  rw [start, addAll_frame, finish]
  simp

/-- Opening a node around what was added opens it in front of that. -/
theorem wrap_addAll (b : Builder) (r : Rule) (ts : List Tree) :
    (b.addAll ts).wrap b.mark r = (b.start r).addAll ts := by
  rcases b with ⟨ground, _ | ⟨⟨s, children⟩, rest⟩⟩
  · rw [addAll_ground, start, addAll_frame]
    simp [wrap, mark, top, Array.shrink_eq_take, Array.extract_append]
  · rw [addAll_frame, start, addAll_frame]
    simp [wrap, mark, top]

/-- A tree that stands a number of open nodes above a base. -/
inductive Above (b : Builder) : Nat → Builder → Prop
  | base (ts : List Tree) : Above b 0 (b.addAll ts)
  | opened {d : Nat} {c : Builder} (r : Rule) (ts : List Tree) :
      Above b d c → Above b (d + 1) ((c.start r).addAll ts)

namespace Above

variable {b c : Builder} {d : Nat}

theorem addAll (h : Above b d c) (ts : List Tree) : Above b d (c.addAll ts) := by
  cases h with
  | base us => rw [← addAll_append]; exact .base _
  | opened r us h => rw [← addAll_append]; exact .opened r _ h

theorem start (h : Above b d c) (r : Rule) : Above b (d + 1) (c.start r) := .opened r [] h

theorem finish (h : Above b (d + 1) c) : Above b d c.finish := by
  cases h with
  | opened r ts h =>
    rw [finish_addAll_start]
    exact h.addAll [_]

end Above

end Builder

/-! ## Shapes of steps -/

/-- What a step does to the tree. -/
inductive Shape where
  | opens (r : Rule)
  | wraps (mark : Nat) (r : Rule)
  | closes
  /-- Adds exactly one node. -/
  | node
  /-- Adds finished trees. -/
  | trees
  /-- Behind a node at the mark: may put it into a larger node. -/
  | regrows (mark : Nat)
  /-- Puts all trees behind the mark into others. -/
  | gathers (mark : Nat)
  | unknown

/-- The step adds finished trees, and nothing else. -/
def Shape.adds : Shape → Bool
  | node | trees => true
  | _ => false

def Step.shape : Step → Shape
  | start r => .opens r
  | wrap mark r => .wraps mark r
  | finish => .closes
  | expectThen _ next => if next.shape.adds then .trees else .unknown
  | expr (.assignment m) | expr (.alternatives m) | expr (.operators _ m)
  | expr (.suffixes m) => .regrows m
  | expr (.initializerValues m) | expr (.initializerRest m) => .gathers m
  | expr .expression | expr .conditional | expr (.binary _) | expr .unary | expr .operand
  | expr .primary | expr .literal => .node
  | soql .query | soql .search => .node
  | stmt .statement => .node
  | decl .compilationUnit | decl .triggerUnit | decl .anonymousUnit => .node
  | _ => .trees

/-- With some nodes open, the steps close these and all that they open, and add
finished trees between. -/
def closes : Nat → List Step → Bool
  | depth, [] => depth == 0
  | depth, s :: ss =>
    match s.shape, depth with
    | .opens _, depth => closes (depth + 1) ss
    | .closes, depth + 1 => closes depth ss
    | shape, depth => shape.adds && closes depth ss

theorem closes_singleton {s : Step} (h : s.shape.adds = true) : closes 0 [s] = true := by
  cases hs : s.shape <;> simp_all [closes, Shape.adds]

/-- The steps open a node, fill it, and close it at the end. -/
def isNode : List Step → Bool
  | .start _ :: ss => ss.getLast? == some .finish && closes 0 ss.dropLast
  | _ => false

namespace Parser

/-- The change of the tree is of a shape. -/
def Shaped (p q : Parser) : Shape → Prop
  | .opens r => q.tree = p.tree.start r
  | .wraps mark r => q.tree = p.tree.wrap mark r
  | .closes => q.tree = p.tree.finish
  | .node => ∃ r ts, q.tree = p.tree.add (.node r ts)
  | .trees => ∃ ts, q.tree = p.tree.addAll ts
  | .regrows mark => ∀ (b : Builder) (r : Rule) (ts : List Tree), b.mark = mark →
      p.tree = b.add (.node r ts) → ∃ r' ts', q.tree = b.add (.node r' ts')
  | .gathers mark => ∀ (b : Builder) (ts : List Tree), b.mark = mark →
      p.tree = b.addAll ts → ∃ ts', q.tree = b.addAll ts'
  | .unknown => True

/-- Each step changes the tree by its shape, one after the other. -/
abbrev ShapedAll : List Step → Parser → Parser → Prop := Chain fun s p q => Shaped p q s.shape

section Lists

variable {p q : Parser} {ss : List Step} {s : Step} {r : Rule}

/-- One node or any number of trees are trees that are added. -/
theorem Shaped.addAll {shape : Shape} (h : Shaped p q shape) (hs : shape.adds = true) :
    ∃ ts, q.tree = p.tree.addAll ts := by
  cases shape with
  | node =>
    obtain ⟨r, ts, h⟩ := h
    exact ⟨[.node r ts], h⟩
  | trees =>
    obtain ⟨ts, h⟩ := h
    exact ⟨ts, h⟩
  | _ => cases hs

theorem above_of_closes {b : Builder} {d : Nat} (hc : closes d ss = true)
    (h : ShapedAll ss p q) (hb : b.Above d p.tree) : b.Above 0 q.tree := by
  induction ss generalizing d p with
  | nil =>
    rw [closes, beq_iff_eq] at hc
    cases h
    rwa [hc] at hb
  | cons s ss ih =>
    obtain ⟨p', hs, h⟩ := h
    unfold closes at hc
    split at hc
    · rename_i r hr
      rw [hr] at hs
      exact ih hc h (hs ▸ hb.start r)
    · rename_i hr
      rw [hr] at hs
      exact ih hc h (hs ▸ hb.finish)
    · rw [Bool.and_eq_true] at hc
      obtain ⟨ts, hts⟩ := hs.addAll hc.1
      exact ih hc.2 h (hts ▸ hb.addAll ts)

/-- Balanced steps add finished trees. -/
theorem adds_of_closes (hc : closes 0 ss = true) (h : ShapedAll ss p q) :
    ∃ ts, q.tree = p.tree.addAll ts := by
  have hb : p.tree.Above 0 q.tree := above_of_closes hc h (.base [])
  generalize q.tree = t at hb
  cases hb with
  | base ts => exact ⟨ts, rfl⟩

/-- Balanced steps in a node that was opened around some trees add that node. -/
theorem node_of_closes {b : Builder} {ts : List Tree} (hc : closes 0 ss = true)
    (h : ShapedAll (ss ++ [Step.finish]) p q) (hp : p.tree = (b.start r).addAll ts) :
    ∃ ts', q.tree = b.add (.node r ts') := by
  obtain ⟨p', h1, h2⟩ := Chain.append_iff.1 h
  obtain ⟨us, hus⟩ := adds_of_closes hc h1
  obtain ⟨q', h2, rfl⟩ := h2
  have hq : q.tree = p'.tree.finish := h2
  refine ⟨ts ++ us, ?_⟩
  rw [hq, hus, hp, ← Builder.addAll_append, Builder.finish_addAll_start]

/-- Steps that open, fill and close a node add that node. -/
theorem node_of_isNode (hn : isNode ss = true) (h : ShapedAll ss p q) :
    ∃ r ts, q.tree = p.tree.add (.node r ts) := by
  unfold isNode at hn
  split at hn
  · rename_i r ss
    rw [Bool.and_eq_true, beq_iff_eq] at hn
    obtain ⟨hlast, hc⟩ := hn
    obtain ⟨body, rfl⟩ := List.getLast?_eq_some_iff.1 hlast
    rw [List.dropLast_concat] at hc
    obtain ⟨p', hs, h⟩ := h
    have hp' : p'.tree = (p.tree.start r).addAll [] := hs
    exact ⟨r, node_of_closes hc h hp'⟩
  · cases hn

/-- A node that is opened around the trees behind a mark takes all of them. -/
theorem node_of_wrap {b : Builder} {ts : List Tree} (body : List Step) (hc : closes 0 body = true)
    (h : ShapedAll (.wrap b.mark r :: body ++ [Step.finish]) p q) (hp : p.tree = b.addAll ts) :
    ∃ ts', q.tree = b.add (.node r ts') := by
  obtain ⟨p', hs, h⟩ := h
  have hw : p'.tree = p.tree.wrap b.mark r := hs
  have hp' : p'.tree = (b.start r).addAll ts := by rw [hw, hp, Builder.wrap_addAll]
  exact node_of_closes hc h hp'

theorem regrows_refl (m : Nat) (p : Parser) : Shaped p p (.regrows m) :=
  fun _ r ts _ hp => ⟨r, ts, hp⟩

theorem regrows_trans {m : Nat} {p q r : Parser} (h : Shaped p q (.regrows m))
    (h' : Shaped q r (.regrows m)) : Shaped p r (.regrows m) := by
  intro b s ts hm hp
  obtain ⟨s', ts', hq⟩ := h b s ts hm hp
  exact h' b s' ts' hm hq

/-- A node that is opened around the node behind a mark puts it into a larger one. -/
theorem regrows_of_wrap {m : Nat} (body : List Step) (hc : closes 0 body = true)
    (h : ShapedAll (.wrap m r :: body ++ [Step.finish]) p q) : Shaped p q (.regrows m) := by
  rintro b s ts rfl hp
  have hp' : p.tree = b.addAll [.node s ts] := hp
  exact ⟨r, node_of_wrap body hc h hp'⟩

theorem gathers_of_wrap {m : Nat} (body : List Step) (hc : closes 0 body = true)
    (h : ShapedAll (.wrap m r :: body ++ [Step.finish]) p q) : Shaped p q (.gathers m) := by
  rintro b ts rfl hp
  obtain ⟨ts', hq⟩ := node_of_wrap body hc h hp
  exact ⟨[.node r ts'], hq⟩

/-- A larger node may be put into a still larger one. -/
theorem regrows_again {m : Nat} {again : Step} (body : List Step) (hc : closes 0 body = true)
    (ha : again.shape = .regrows m)
    (h : ShapedAll (.wrap m r :: body ++ [Step.finish, again]) p q) : Shaped p q (.regrows m) := by
  have h' : ShapedAll ((.wrap m r :: body ++ [Step.finish]) ++ [again]) p q := by
    simpa using h
  obtain ⟨p', h1, h2⟩ := Chain.append_iff.1 h'
  obtain ⟨q, h2, rfl⟩ := h2
  rw [ha] at h2
  exact regrows_trans (regrows_of_wrap body hc h1) h2

/-- More trees are gathered with those that are there. -/
theorem gathers_of_append {m : Nat} {again : Step} (body : List Step) (hc : closes 0 body = true)
    (ha : again.shape = .gathers m) (h : ShapedAll (body ++ [again]) p q) :
    Shaped p q (.gathers m) := by
  intro b ts hm hp
  obtain ⟨p', h1, q, h2, rfl⟩ := Chain.append_iff.1 h
  rw [ha] at h2
  obtain ⟨us, hp'⟩ := adds_of_closes hc h1
  refine h2 b (ts ++ us) hm ?_
  rw [hp', hp, Builder.addAll_append]

/-- An operand, and what may put it into a larger node. -/
theorem node_of_regrows {a c : Step} (ha : a.shape = .node) (hc : c.shape = .regrows p.tree.mark)
    (h : ShapedAll [a, c] p q) : Shaped p q .node := by
  obtain ⟨p', h1, q', h2, rfl⟩ := h
  rw [ha] at h1
  rw [hc] at h2
  obtain ⟨r, ts, hp'⟩ := h1
  exact h2 p.tree r ts rfl hp'

end Lists

/-! ## Shapes of the parts -/

theorem closes_typ (v : Lookahead) (part : TypePart) : closes 0 (part.expand v) = true := by
  cases part <;> simp only [TypePart.expand] <;> repeat' split
  all_goals rfl

theorem closes_soql (v : Lookahead) (part : QueryPart)
    (h : (Step.soql part).shape = .trees) : closes 0 (part.expand v) = true := by
  cases part with
  | query | search => cases h
  | _ =>
    simp only [QueryPart.expand, clause, selectEntrySteps, valueSteps]
    repeat' split
    all_goals rfl

theorem closes_stmt (v : Lookahead) (part : StmtPart)
    (h : (Step.stmt part).shape = .trees) : closes 0 (part.expand v) = true := by
  cases part with
  | statement => cases h
  | blockStatements =>
    simp only [StmtPart.expand, untilBrace]
    repeat' split
    all_goals rfl
  | _ =>
    simp only [StmtPart.expand, loopControlSteps, whenValueSteps]
    repeat' split
    all_goals rfl

theorem isNode_statement (v : Lookahead) : isNode (StmtPart.statement.expand v) = true := by
  simp only [StmtPart.expand, statementSteps, dmlSteps]
  repeat' split
  all_goals rfl

theorem closes_decl (v : Lookahead) (part : DeclPart)
    (h : (Step.decl part).shape = .trees) : closes 0 (part.expand v) = true := by
  cases part with
  | compilationUnit | triggerUnit | anonymousUnit => cases h
  | _ =>
    simp only [DeclPart.expand, untilBrace, memberSteps, classMemberSteps, annotationValueSteps]
    repeat' split
    all_goals rfl

theorem closes_expr (v : Lookahead) (part : ExprPart) (mark : Nat)
    (h : (Step.expr part).shape = .trees) (hf : part ≠ .creatorForm) (ha : part ≠ .arrayValues) :
    closes 0 (part.expand v mark) = true := by
  cases part with
  | creatorForm => exact absurd rfl hf
  | arrayValues => exact absurd rfl ha
  | arguments | argumentList | list | moreExpressions | creator | arraySize | mapEntries
  | member =>
    simp only [ExprPart.expand]
    repeat' split
    all_goals rfl
  | _ => cases h

theorem isNode_primary (v : Lookahead) (mark : Nat) :
    isNode (ExprPart.primary.expand v mark) = true :=
  primarySteps_cases (P := fun ss =>
    isNode (Step.start .primaryExpression :: ss ++ [Step.finish]) = true) v
    rfl rfl rfl rfl rfl rfl rfl rfl rfl

theorem isNode_literal (v : Lookahead) (mark : Nat) :
    isNode (ExprPart.literal.expand v mark) = true := by
  simp only [ExprPart.expand]
  split <;> rfl

theorem unarySteps_cases (v : Lookahead) :
    unarySteps v = [.expr .operand] ∨ isNode (unarySteps v) = true := by
  unfold unarySteps
  repeat' split
  all_goals first | exact .inl rfl | exact .inr rfl

theorem closes_operator (n : Nat) (r : Rule) (level : Nat) :
    closes 0 [.take n, rightOperand r level] = true := by
  unfold rightOperand
  split <;> rfl

/-! ## The law of shapes -/

section Law

variable {p q : Parser}

theorem takeMany_adds (p : Parser) (n : Nat) : ∃ ts, (p.takeMany n).tree = p.tree.addAll ts := by
  induction n generalizing p with
  | zero => exact ⟨[], rfl⟩
  | succ n ih =>
    obtain ⟨ts, h⟩ := ih p.take
    exact ⟨.token p.current :: ts, h⟩

/-- The values of a collection stand behind the trees that were there before. -/
theorem adds_of_initializer (h : ShapedAll (initializerSteps p.tree.mark) p q) :
    ∃ ts, q.tree = p.tree.addAll ts := by
  obtain ⟨p', h1, q, h2, rfl⟩ := h
  obtain ⟨ts, hp'⟩ := h1
  exact h2 p.tree ts rfl hp'

theorem shaped_expr (part : ExprPart) (h : ShapedAll (part.expand p.lookahead p.tree.mark) p q) :
    Shaped p q (Step.expr part).shape := by
  cases part with
  | expression => exact node_of_regrows rfl rfl h
  | conditional => exact node_of_regrows rfl rfl h
  | operand => exact node_of_regrows rfl rfl h
  | binary level =>
    simp only [ExprPart.expand] at h
    split at h
    · exact node_of_regrows rfl rfl h
    · obtain ⟨q, h, rfl⟩ := h
      exact h
  | unary =>
    rw [ExprPart.expand] at h
    rcases unarySteps_cases p.lookahead with he | hn
    · rw [he] at h
      obtain ⟨q, h, rfl⟩ := h
      exact h
    · exact node_of_isNode hn h
  | primary => exact node_of_isNode (isNode_primary _ _) h
  | literal => exact node_of_isNode (isNode_literal _ _) h
  | assignment m =>
    simp only [ExprPart.expand] at h
    split at h
    · exact regrows_of_wrap [.take 1, .expr .expression] rfl h
    · cases h
      exact regrows_refl m p
  | alternatives m =>
    simp only [ExprPart.expand] at h
    split at h
    · exact regrows_of_wrap [.take 1, .expr .expression, .expect (.mark .colon),
        .expr .conditional] rfl h
    · cases h
      exact regrows_refl m p
  | operators level m =>
    simp only [ExprPart.expand] at h
    split at h
    · rename_i r n hop
      exact regrows_again [.take n, rightOperand r level] (closes_operator n r level) rfl h
    · cases h
      exact regrows_refl m p
  | suffixes m =>
    simp only [ExprPart.expand] at h
    repeat' split at h
    · exact regrows_again [.take 1, .expr .member] rfl rfl h
    · exact regrows_again [.take 1, .expr .expression, .expect (.mark .rBrack)] rfl rfl h
    · exact regrows_again [.take 1] rfl rfl h
    · cases h
      exact regrows_refl m p
  | initializerValues m =>
    simp only [ExprPart.expand] at h
    split at h
    · exact gathers_of_wrap [.take 1] rfl h
    · exact gathers_of_append [.expr .expression] rfl rfl h
  | initializerRest m =>
    simp only [ExprPart.expand] at h
    split at h
    · exact gathers_of_wrap [.take 1, .expr .expression, .expr .mapEntries,
        .expect (.mark .rBrace)] rfl h
    · exact gathers_of_wrap [.expr .moreExpressions, .expect (.mark .rBrace)] rfl h
  | creatorForm =>
    simp only [ExprPart.expand] at h
    repeat' split at h
    · exact adds_of_closes rfl h
    · exact adds_of_closes rfl h
    · exact adds_of_initializer h
    · exact adds_of_closes rfl h
  | arrayValues =>
    simp only [ExprPart.expand] at h
    split at h
    · exact adds_of_initializer h
    · exact adds_of_closes rfl h
  | _ =>
    refine adds_of_closes ?_ h
    exact closes_expr _ _ _ rfl nofun nofun

theorem adds_expect {e : Expected} {next more : List Step} {p' : Parser}
    (h : p.expect e next = (p', .ok more)) (hc : closes 0 next = true)
    (hm : ShapedAll more p' q) : ∃ ts, q.tree = p.tree.addAll ts := by
  rcases expect_ok h with ⟨_, rfl, rfl⟩ | ⟨_, _, ⟨m, rfl⟩, rfl⟩ | ⟨⟨m, rfl⟩, rfl⟩
  · obtain ⟨ts, hq⟩ := adds_of_closes hc hm
    exact ⟨.token p.current :: ts, hq⟩
  · have hc' : closes 0 (.skip :: .take 1 :: next) = true := hc
    obtain ⟨ts, hq⟩ := adds_of_closes hc' hm
    exact ⟨ts, by rw [hq, tree_report]⟩
  · cases hm
    exact ⟨[], by simp⟩

/-- A step changes the tree by its shape when the steps that it leads to do. -/
theorem shaped_perform {s : Step} {p' : Parser} {more : List Step}
    (h : p.perform s = (p', .ok more)) (hm : ShapedAll more p' q) : Shaped p q s.shape := by
  cases s with
  | start r => cases h; cases hm; exact rfl
  | wrap mark r => cases h; cases hm; exact rfl
  | finish => cases h; cases hm; exact rfl
  | take n => cases h; cases hm; exact takeMany_adds p n
  | takeIf m =>
    cases h
    cases hm
    split
    · exact ⟨[.token p.current], rfl⟩
    · exact ⟨[], rfl⟩
  | skip => cases h; cases hm; exact ⟨[.skipped p.current], rfl⟩
  | progress since =>
    cases h
    cases hm
    split
    · exact ⟨[.skipped p.current], rfl⟩
    · exact ⟨[], rfl⟩
  | expect e => exact adds_expect h rfl hm
  | expectThen e next =>
    by_cases hn : next.shape.adds = true
    · rw [Step.shape, if_pos hn]
      exact adds_expect h (closes_singleton hn) hm
    · rw [Step.shape, if_neg hn]
      trivial
  | complain c =>
    obtain ⟨rfl, rfl⟩ := reportThen_ok h
    cases hm
    exact ⟨[], by simp⟩
  | endOfText =>
    simp only [Parser.perform] at h
    split at h
    · cases h; cases hm; exact ⟨[.token p.current], rfl⟩
    · obtain ⟨rfl, rfl⟩ := reportThen_ok h
      obtain ⟨ts, hq⟩ := adds_of_closes rfl hm
      exact ⟨ts, by rw [hq, tree_report]⟩
  | skipRest =>
    simp only [Parser.perform] at h
    split at h
    · cases h; cases hm; exact ⟨[], rfl⟩
    · cases h
      obtain ⟨ts, hq⟩ := adds_of_closes rfl hm
      exact ⟨.skipped p.current :: ts, hq⟩
  | typ part => cases h; exact adds_of_closes (closes_typ _ _) hm
  | expr part => cases h; exact shaped_expr part hm
  | soql part =>
    cases h
    cases part with
    | query | search => exact node_of_isNode rfl hm
    | _ => refine adds_of_closes ?_ hm; exact closes_soql _ _ rfl
  | stmt part =>
    cases h
    cases part with
    | statement => exact node_of_isNode (isNode_statement _) hm
    | _ => refine adds_of_closes ?_ hm; exact closes_stmt _ _ rfl
  | decl part =>
    cases h
    cases part with
    | compilationUnit | triggerUnit | anonymousUnit => exact node_of_isNode rfl hm
    | _ => refine adds_of_closes ?_ hm; exact closes_decl _ _ rfl

theorem Leads.shaped {allowed : Parser → Step → Prop} {ss : List Step}
    (h : Leads allowed ss p q) : ShapedAll ss p q :=
  (h.chain fun hp _ hc => shaped_perform hp (hc.mono fun _ _ _ => And.right)).mono
    fun _ _ _ => And.right

theorem shape_entry (entry : Entry) : entry.step.shape = .node := by
  cases entry <;> rfl

/-- An entry adds exactly one node. -/
theorem node_of_entry {entry : Entry} (h : Runs [entry.step] p q) :
    ∃ r ts, q.tree = p.tree.add (.node r ts) := by
  obtain ⟨q, hs, rfl⟩ := h.shaped
  rw [shape_entry] at hs
  exact hs

end Law

end Parser

end ApexSyntax
