-- Abstract expressions and how they are printed. Parentheses stand exactly around
-- the operands that are of a looser level than their place allows.
import ApexSyntax.Proofs.Printing.Pieces
import Mathlib.Data.List.Chain

namespace ApexSyntax

/-! ## Names, literals and operators -/

/-- A plain name. -/
structure Name where
  word : String
  word_ne : word ≠ ""

/-- A literal of any form. -/
structure Constant where
  kind : Kind
  word : String
  isLiteral : kind.isLiteral = true

/-- The operators that stand in front of their operand. -/
inductive UnaryOp where
  | plus | minus | inc | dec | bang | tilde
  deriving DecidableEq, Repr

def UnaryOp.mark : UnaryOp → Mark
  | plus => .add
  | minus => .sub
  | inc => .inc
  | dec => .dec
  | bang => .bang
  | tilde => .tilde

def UnaryOp.rule : UnaryOp → Rule
  | bang | tilde => .negExpression
  | _ => .preOpExpression

/-- The operators that stand behind their operand. -/
inductive StepOp where
  | inc | dec
  deriving DecidableEq, Repr

def StepOp.mark : StepOp → Mark
  | inc => .inc
  | dec => .dec

/-- How a member is reached: by a dot, or safely. -/
inductive Access where
  | plain | safe
  deriving DecidableEq, Repr

def Access.mark : Access → Mark
  | plain => .dot
  | safe => .questionDot

structure AssignOp where
  mark : Mark
  isAssignment : (Kind.mark mark).isAssignment = true

/-- The operators between two operands, without `instanceof`. -/
inductive BinaryOp where
  | coalesce | orOr | andAnd | bitOr | caret | bitAnd
  | eq | ne | lessGreater | tripleEq | tripleNe | lt | gt | le | ge
  | shiftLeft | shiftRight | shiftRightUnsigned
  | add | sub | mul | div | mod
  deriving DecidableEq, Repr

namespace BinaryOp

/-- The level of an operator, the loosest first. -/
def level : BinaryOp → Nat
  | coalesce => 0
  | orOr => 1
  | andAnd => 2
  | bitOr => 3
  | caret => 4
  | bitAnd => 5
  | eq | ne | lessGreater | tripleEq | tripleNe => 6
  | lt | gt | le | ge => 7
  | shiftLeft | shiftRight | shiftRightUnsigned => 8
  | add | sub => 9
  | mul | div | mod => 10

def rule : BinaryOp → Rule
  | coalesce => .coalExpression
  | orOr => .logOrExpression
  | andAnd => .logAndExpression
  | bitOr => .bitOrExpression
  | caret => .bitNotExpression
  | bitAnd => .bitAndExpression
  | eq | ne | lessGreater | tripleEq | tripleNe => .equalityExpression
  | lt | gt | le | ge => .cmpExpression
  | shiftLeft | shiftRight | shiftRightUnsigned => .bitExpression
  | add | sub => .arth2Expression
  | mul | div | mod => .arth1Expression

/-- The tokens of an operator. The angles of a shift touch. -/
def pieces : BinaryOp → List Piece
  | coalesce => [.mark .coalesce]
  | orOr => [.mark .orOr]
  | andAnd => [.mark .andAnd]
  | bitOr => [.mark .bitOr]
  | caret => [.mark .caret]
  | bitAnd => [.mark .bitAnd]
  | eq => [.mark .eq]
  | ne => [.mark .ne]
  | lessGreater => [.mark .lessGreater]
  | tripleEq => [.mark .tripleEq]
  | tripleNe => [.mark .tripleNe]
  | lt => [.mark .lt]
  | gt => [.mark .gt]
  | le => [.mark .le]
  | ge => [.mark .ge]
  | shiftLeft => [.touching .lt, .mark .lt]
  | shiftRight => [.touching .gt, .mark .gt]
  | shiftRightUnsigned => [.touching .gt, .touching .gt, .mark .gt]
  | add => [.mark .add]
  | sub => [.mark .sub]
  | mul => [.mark .mul]
  | div => [.mark .div]
  | mod => [.mark .mod]

theorem level_lt (op : BinaryOp) : op.level < 11 := by
  cases op <;> decide

end BinaryOp

/-! ## Expressions -/

inductive Expr where
  | name (n : Name)
  | constant (c : Constant)
  | call (f : Name) (args : List Expr)
  | member (base : Expr) (access : Access) (n : Name)
  | invoke (base : Expr) (access : Access) (f : Name) (args : List Expr)
  | index (base place : Expr)
  | stepped (base : Expr) (op : StepOp)
  | unary (op : UnaryOp) (operand : Expr)
  | binary (op : BinaryOp) (left right : Expr)
  | cond (test yes no : Expr)
  | assign (op : AssignOp) (target value : Expr)

namespace Expr

/-- The level of an expression: assignments are the loosest, then come the
conditional, the levels of the binary operators and the prefixed operands. -/
def level : Expr → Nat
  | assign .. => 0
  | cond .. => 1
  | binary op .. => op.level + 2
  | unary .. => 13
  | _ => 14

/-- The level up to which what comes behind an expression is read into it: that of the
operand on its right. -/
def reach : Expr → Nat
  | assign .. => 0
  | cond .. => 1
  | binary op .. => op.level + 3
  | unary .. => 13
  | _ => 15

/-- What continues an expression of a loose level is read into its right operand. -/
theorem reach_cases (e : Expr) : e.level ≤ 14 ∧ (e.reach = e.level + 1 ∨
    e.reach = e.level ∧ (e.level = 0 ∨ e.level = 1 ∨ e.level = 13)) := by
  cases e with
  | binary op =>
    have hop := op.level_lt
    have hlevel : op.level + 2 ≤ 14 := by omega
    exact ⟨hlevel, .inl rfl⟩
  | _ => simp [level, reach]

/-- Where a level is called for, looser expressions stand in parentheses. -/
def enclose (need level : Nat) (ps : List Piece) : List Piece :=
  if level < need then .mark .lParen :: ps ++ [.mark .rParen] else ps

mutual

/-- The tokens of an expression. -/
def pieces : Expr → List Piece
  | name n => [.named n.word]
  | constant c => [⟨c.kind, c.word, false⟩]
  | call f args => .named f.word :: .mark .lParen :: listPieces args ++ [.mark .rParen]
  | member base a n => enclose 14 base.level base.pieces ++ [.mark a.mark, .named n.word]
  | invoke base a f args =>
    enclose 14 base.level base.pieces ++
      (.mark a.mark :: .named f.word :: .mark .lParen :: listPieces args ++ [.mark .rParen])
  | index base place =>
    enclose 14 base.level base.pieces ++ (.mark .lBrack :: place.pieces ++ [.mark .rBrack])
  | stepped base op => enclose 14 base.level base.pieces ++ [.mark op.mark]
  | unary op operand => .mark op.mark :: enclose 13 operand.level operand.pieces
  | binary op left right =>
    enclose (op.level + 2) left.level left.pieces ++
      (op.pieces ++ enclose (op.level + 3) right.level right.pieces)
  | cond test yes no =>
    enclose 2 test.level test.pieces ++
      (.mark .question :: yes.pieces ++ (.mark .colon :: enclose 1 no.level no.pieces))
  | assign op target value =>
    enclose 1 target.level target.pieces ++ (.mark op.mark :: value.pieces)

/-- The tokens of arguments, with commas between them. -/
def listPieces : List Expr → List Piece
  | [] => []
  | e :: es => e.pieces ++ morePieces es

/-- The tokens of more arguments, with a comma in front of each. -/
def morePieces : List Expr → List Piece
  | [] => []
  | e :: es => .mark .comma :: e.pieces ++ morePieces es

end

/-- An operand in parentheses is an operand of its own. -/
def encloseOutline (need level : Nat) (o : Outline) : Outline :=
  if level < need then .node .primaryExpression [.mark .lParen, o, .mark .rParen] else o

/-- A call of a name. -/
def callOutline (f : Name) (args : List Outline) : Outline :=
  .node .methodCall [.token .identifier f.word,
    .node .arguments (.mark .lParen :: args ++ [.mark .rParen])]

mutual

/-- The tree of an expression. -/
def outline : Expr → Outline
  | name n => .node .primaryExpression [.token .identifier n.word]
  | constant c => .node .primaryExpression [.node .literal [.token c.kind c.word]]
  | call f args => .node .primaryExpression [callOutline f (listOutlines args)]
  | member base a n =>
    .node .dotExpression
      [encloseOutline 14 base.level base.outline, .mark a.mark, .token .identifier n.word]
  | invoke base a f args =>
    .node .dotExpression
      [encloseOutline 14 base.level base.outline, .mark a.mark, callOutline f (listOutlines args)]
  | index base place =>
    .node .arrayExpression
      [encloseOutline 14 base.level base.outline, .mark .lBrack, place.outline, .mark .rBrack]
  | stepped base op =>
    .node .postOpExpression [encloseOutline 14 base.level base.outline, .mark op.mark]
  | unary op operand =>
    .node op.rule [.mark op.mark, encloseOutline 13 operand.level operand.outline]
  | binary op left right =>
    .node op.rule
      (encloseOutline (op.level + 2) left.level left.outline :: op.pieces.map Piece.outline ++
        [encloseOutline (op.level + 3) right.level right.outline])
  | cond test yes no =>
    .node .condExpression [encloseOutline 2 test.level test.outline, .mark .question,
      yes.outline, .mark .colon, encloseOutline 1 no.level no.outline]
  | assign op target value =>
    .node .assignExpression
      [encloseOutline 1 target.level target.outline, .mark op.mark, value.outline]

/-- The trees of arguments, with commas between them. -/
def listOutlines : List Expr → List Outline
  | [] => []
  | e :: es => e.outline :: moreOutlines es

def moreOutlines : List Expr → List Outline
  | [] => []
  | e :: es => .mark .comma :: e.outline :: moreOutlines es

end

/-- Induction over expressions, with the arguments of calls one by one. -/
@[induction_eliminator]
theorem induction {motive : Expr → Prop} (name : ∀ n, motive (name n))
    (constant : ∀ c, motive (constant c))
    (call : ∀ f args, (∀ e ∈ args, motive e) → motive (call f args))
    (member : ∀ base a n, motive base → motive (member base a n))
    (invoke : ∀ base a f args, motive base → (∀ e ∈ args, motive e) →
      motive (invoke base a f args))
    (index : ∀ base place, motive base → motive place → motive (index base place))
    (stepped : ∀ base op, motive base → motive (stepped base op))
    (unary : ∀ op operand, motive operand → motive (unary op operand))
    (binary : ∀ op left right, motive left → motive right → motive (binary op left right))
    (cond : ∀ test yes no, motive test → motive yes → motive no → motive (cond test yes no))
    (assign : ∀ op target value, motive target → motive value → motive (assign op target value))
    (e : Expr) : motive e :=
  @Expr.rec motive (fun es => ∀ e ∈ es, motive e) name constant call member invoke index stepped
    unary binary cond assign (fun _ he => absurd he List.not_mem_nil)
    (fun _ _ he hes => List.forall_mem_cons.2 ⟨he, hes⟩) e

end Expr

/-! ## What stands side by side -/

/-- Behind an angle and behind an opening bracket an operand starts, unless the angle
is a part of a shift. So no angle closes the arguments of a type, and no brackets
are empty. -/
def Piece.Precedes (a b : Piece) : Prop :=
  a.kind = .mark .lt ∨ a.kind = .mark .gt ∨ a.kind = .mark .lBrack →
    b.kind.startsExpression = true ∨ a.touches = true ∧ b.kind = a.kind

/-- The pieces go well together, and whatever may follow them. -/
def Closed (ps : List Piece) : Prop :=
  ps.IsChain Piece.Precedes ∧ ∀ a ∈ ps.getLast?, ∀ b, a.Precedes b

/-- The pieces start with the start of an operand. -/
def Opens (ps : List Piece) : Prop := ∃ a qs, ps = a :: qs ∧ a.kind.startsExpression = true

section Closed

variable {ps qs : List Piece} {a b : Piece}

theorem closed_nil : Closed [] := ⟨.nil, nofun⟩

theorem Closed.append (h : Closed ps) (h' : Closed qs) : Closed (ps ++ qs) := by
  refine ⟨h.1.append h'.1 fun a ha b _ => h.2 a ha b, fun a ha => ?_⟩
  rw [List.getLast?_append, Option.mem_def, Option.or_eq_some_iff] at ha
  rcases ha with ha | ⟨_, ha⟩
  · exact h'.2 a ha
  · exact h.2 a ha

theorem closed_singleton (h : ∀ b, a.Precedes b) : Closed [a] := by
  refine ⟨.singleton a, fun c hc => ?_⟩
  rw [List.getLast?_singleton, Option.mem_some_iff] at hc
  exact hc ▸ h

theorem Closed.cons (h : Closed ps) (ha : ∀ b, a.Precedes b) : Closed (a :: ps) :=
  (closed_singleton ha).append h

theorem Closed.cons_cons (h : Closed (b :: ps)) (hab : a.Precedes b) : Closed (a :: b :: ps) := by
  refine ⟨h.1.cons_cons hab, fun c hc => h.2 c ?_⟩
  rwa [List.getLast?_cons_cons] at hc

theorem precedes_of_startsExpression (h : b.kind.startsExpression = true) : a.Precedes b :=
  fun _ => .inl h

/-- What is no angle and no opening bracket may stand in front of anything. -/
theorem precedes_of_ne (hl : a.kind ≠ .mark .lt) (hg : a.kind ≠ .mark .gt)
    (hb : a.kind ≠ .mark .lBrack) : a.Precedes b := by
  rintro (h | h | h)
  · exact absurd h hl
  · exact absurd h hg
  · exact absurd h hb

theorem precedes_mark {m : Mark} (h : m ≠ .lt ∧ m ≠ .gt ∧ m ≠ .lBrack) (b : Piece) :
    (Piece.mark m).Precedes b :=
  precedes_of_ne (fun h' => h.1 (Kind.mark.inj h')) (fun h' => h.2.1 (Kind.mark.inj h'))
    (fun h' => h.2.2 (Kind.mark.inj h'))

theorem precedes_named (name : String) (b : Piece) : (Piece.named name).Precedes b :=
  precedes_of_ne nofun nofun nofun

theorem Opens.append (h : Opens ps) : Opens (ps ++ qs) := by
  obtain ⟨a, ps, rfl, ha⟩ := h
  exact ⟨a, ps ++ qs, rfl, ha⟩

theorem Closed.consOpens (h : Closed ps) (ho : Opens ps) : Closed (a :: ps) := by
  obtain ⟨b, ps, rfl, hb⟩ := ho
  exact h.cons_cons (precedes_of_startsExpression hb)

end Closed

/-- Printed on its own, an expression starts as an operand does, and may be followed
by anything. -/
structure Standalone (ps : List Piece) : Prop where
  closed : Closed ps
  opens : Opens ps

section Standalone

variable {ps qs : List Piece} {a : Piece} {need level : Nat}

theorem Standalone.append (h : Standalone ps) (h' : Closed qs) : Standalone (ps ++ qs) :=
  ⟨h.closed.append h', h.opens.append⟩

theorem Standalone.behind (h : Standalone ps) (ha : a.kind.startsExpression = true) :
    Standalone (a :: ps) :=
  ⟨h.closed.consOpens h.opens, a, ps, rfl, ha⟩

theorem standalone_singleton (ha : a.kind.startsExpression = true) (h : ∀ b, a.Precedes b) :
    Standalone [a] :=
  ⟨closed_singleton h, a, [], rfl, ha⟩

theorem Standalone.parenthesized (h : Standalone ps) :
    Standalone (.mark .lParen :: ps ++ [Piece.mark .rParen]) :=
  (h.behind rfl).append (closed_singleton (precedes_mark (by decide)))

theorem Standalone.enclose (h : Standalone ps) : Standalone (Expr.enclose need level ps) := by
  unfold Expr.enclose
  split
  · exact h.parenthesized
  · exact h

/-- Behind an operator stands its right operand. -/
theorem Standalone.closed_operator (h : Standalone ps) (op : BinaryOp) :
    Closed (op.pieces ++ ps) := by
  have hlast : ∀ a, Closed (a :: ps) := fun _ => h.closed.consOpens h.opens
  have hshift : ∀ m, Closed (.touching m :: .mark m :: ps) :=
    fun m => (hlast (.mark m)).cons_cons fun _ => .inr ⟨rfl, rfl⟩
  cases op with
  | shiftLeft | shiftRight => exact hshift _
  | shiftRightUnsigned => exact (hshift .gt).cons_cons fun _ => .inr ⟨rfl, rfl⟩
  | _ => exact hlast _

theorem startsExpression_of_isLiteral {k : Kind} (h : k.isLiteral = true) :
    k.startsExpression = true ∧ k ≠ .mark .lt ∧ k ≠ .mark .gt ∧ k ≠ .mark .lBrack := by
  unfold Kind.isLiteral at h
  split at h
  · exact ⟨rfl, nofun, nofun, nofun⟩
  · exact ⟨rfl, nofun, nofun, nofun⟩
  · exact ⟨rfl, nofun, nofun, nofun⟩
  · exact ⟨rfl, nofun, nofun, nofun⟩
  · cases h

theorem UnaryOp.startsExpression (op : UnaryOp) :
    (Kind.mark op.mark).startsExpression = true := by
  cases op <;> rfl

theorem closed_args {args : List Expr} (h : ∀ e ∈ args, Standalone e.pieces) :
    Closed (Expr.listPieces args) := by
  have hmore : ∀ es : List Expr, (∀ e ∈ es, Standalone e.pieces) →
      Closed (Expr.morePieces es) := by
    intro es hes
    induction es with
    | nil => exact closed_nil
    | cons e es ih =>
      rw [List.forall_mem_cons] at hes
      exact (hes.1.closed.cons (precedes_mark (by decide))).append (ih hes.2)
  cases args with
  | nil => exact closed_nil
  | cons e es =>
    rw [List.forall_mem_cons] at h
    exact h.1.closed.append (hmore es h.2)

/-- The name of a call and its arguments. -/
theorem closed_call {args : List Expr} (f : Name) (h : ∀ e ∈ args, Standalone e.pieces) :
    Closed (.named f.word :: .mark .lParen :: Expr.listPieces args ++ [Piece.mark .rParen]) :=
  (((closed_args h).cons (precedes_mark (by decide))).cons (precedes_named f.word)).append
    (closed_singleton (precedes_mark (by decide)))

/-- Every expression is printed as a standalone list of pieces. -/
theorem Expr.standalone (e : Expr) : Standalone e.pieces := by
  induction e with
  | name n => exact standalone_singleton rfl (precedes_named n.word)
  | constant c =>
    obtain ⟨hs, hl, hg, hb⟩ := startsExpression_of_isLiteral c.isLiteral
    exact standalone_singleton hs fun b => precedes_of_ne hl hg hb
  | call f args ih => exact ⟨closed_call f ih, _, _, rfl, rfl⟩
  | member base a n ih =>
    have hn := closed_singleton (precedes_named n.word)
    exact ih.enclose.append (hn.cons (precedes_mark (by cases a <;> decide)))
  | invoke base a f args ih ihs =>
    exact ih.enclose.append ((closed_call f ihs).cons (precedes_mark (by cases a <;> decide)))
  | index base place ih ihp =>
    have hclose := closed_singleton (precedes_mark (m := .rBrack) (by decide))
    exact ih.enclose.append ((ihp.closed.consOpens ihp.opens).append hclose)
  | stepped base op ih =>
    exact ih.enclose.append (closed_singleton (precedes_mark (by cases op <;> decide)))
  | unary op operand ih => exact ih.enclose.behind op.startsExpression
  | binary op left right ihl ihr => exact ihl.enclose.append (ihr.enclose.closed_operator op)
  | cond test yes no iht ihy ihn =>
    have hno : Standalone (enclose 1 no.level no.pieces) := ihn.enclose
    exact iht.enclose.append ((ihy.closed.consOpens ihy.opens).append
      (hno.closed.consOpens hno.opens))
  | assign op target value iht ihv =>
    exact iht.enclose.append (ihv.closed.consOpens ihv.opens)

end Standalone

/-! ## Dotted names in parentheses -/

/-- Up to a closing parenthesis there is nothing but a dotted name; behind a name, if
one was just read. -/
def closesPath : Bool → List Piece → Bool
  | false, a :: ps => a.token.isTypeName && closesPath true ps
  | true, a :: ps => a.kind == .mark .rParen || (a.kind == .mark .dot && closesPath false ps)
  | _, [] => false

/-- No dotted name up to a closing parenthesis starts with these pieces. -/
def NoPath (ps : List Piece) : Prop := ∀ rest, closesPath false (ps ++ rest) = false

/-- The pieces are a dotted name, or no dotted name starts with them. -/
def PathOrNot (ps : List Piece) : Prop :=
  NoPath ps ∨ ∀ rest, closesPath false (ps ++ rest) = closesPath true rest

section Paths

variable {ps : List Piece} {a : Piece} {need level : Nat}

theorem noPath_of_not_typeName (h : a.token.isTypeName = false) : NoPath (a :: ps) := by
  intro rest
  rw [List.cons_append, closesPath, h, Bool.false_and]

/-- A dotted name with something else behind it is none. -/
theorem PathOrNot.noPath (h : PathOrNot ps) (hp : a.kind ≠ .mark .rParen)
    (hd : a.kind ≠ .mark .dot) (qs : List Piece) : NoPath (ps ++ a :: qs) := by
  intro rest
  rw [List.append_assoc]
  rcases h with h | h
  · exact h _
  · rw [h, List.cons_append, closesPath, beq_false_of_ne hp, beq_false_of_ne hd]
    rfl

theorem PathOrNot.enclose (h : PathOrNot ps) : PathOrNot (Expr.enclose need level ps) := by
  unfold Expr.enclose
  split
  · exact .inl (noPath_of_not_typeName rfl)
  · exact h

theorem isTypeName_of_isLiteral {k : Kind} {w : String} (h : k.isLiteral = true) :
    (Piece.token ⟨k, w, false⟩).isTypeName = false := by
  unfold Kind.isLiteral at h
  split at h
  · rfl
  · rfl
  · rfl
  · rfl
  · cases h

theorem BinaryOp.pieces_eq (op : BinaryOp) : ∃ m b qs, op.pieces = ⟨.mark m, "", b⟩ :: qs ∧
    m ≠ .rParen ∧ m ≠ .dot := by
  cases op <;> exact ⟨_, _, _, rfl, by decide, by decide⟩

/-- Of all expressions only names and their members are dotted names. -/
theorem Expr.pathOrNot (e : Expr) : PathOrNot e.pieces ∧ (e.level < 14 → NoPath e.pieces) := by
  have hmark : ∀ {ps : List Piece} {m : Mark} (qs : List Piece), PathOrNot ps → m ≠ .rParen →
      m ≠ .dot → NoPath (ps ++ .mark m :: qs) :=
    fun qs h hp hd => h.noPath (fun he => hp (Kind.mark.inj he))
      (fun he => hd (Kind.mark.inj he)) qs
  have htop : ∀ {e : Expr}, PathOrNot e.pieces → 14 ≤ e.level →
      PathOrNot e.pieces ∧ (e.level < 14 → NoPath e.pieces) :=
    fun h hl => ⟨h, fun hlt => absurd hlt (Nat.not_lt.2 hl)⟩
  have hnone : ∀ {e : Expr}, NoPath e.pieces →
      PathOrNot e.pieces ∧ (e.level < 14 → NoPath e.pieces) := fun h => ⟨.inl h, fun _ => h⟩
  induction e with
  | name n => exact htop (.inr fun _ => rfl) (Nat.le_refl _)
  | constant c => exact hnone (noPath_of_not_typeName (isTypeName_of_isLiteral c.isLiteral))
  | call f args => exact hnone fun _ => rfl
  | member base a n ih =>
    refine htop ?_ (Nat.le_refl _)
    cases a with
    | plain =>
      have hbase : PathOrNot (enclose 14 base.level base.pieces) := ih.1.enclose
      rcases hbase with h | h
      · refine .inl fun rest => ?_
        rw [pieces, List.append_assoc]
        exact h _
      · refine .inr fun rest => ?_
        rw [pieces, List.append_assoc, h]
        rfl
    | safe => exact .inl (hmark _ ih.1.enclose (by decide) (by decide))
  | invoke base a f args ih =>
    cases a with
    | plain =>
      have hbase : PathOrNot (enclose 14 base.level base.pieces) := ih.1.enclose
      refine hnone fun rest => ?_
      rw [pieces, List.append_assoc]
      rcases hbase with h | h
      · exact h _
      · rw [h]
        rfl
    | safe => exact hnone (hmark _ ih.1.enclose (by decide) (by decide))
  | index base place ih =>
    exact hnone (hmark _ ih.1.enclose (by decide) (by decide))
  | stepped base op ih =>
    exact hnone (hmark _ ih.1.enclose (by cases op <;> decide) (by cases op <;> decide))
  | unary op operand => exact hnone (noPath_of_not_typeName (by cases op <;> rfl))
  | binary op left right ih =>
    obtain ⟨m, b, qs, hop, hp, hd⟩ := op.pieces_eq
    refine hnone ?_
    rw [pieces, hop]
    exact ih.1.enclose.noPath (fun he => hp (Kind.mark.inj he)) (fun he => hd (Kind.mark.inj he)) _
  | cond test yes no ih => exact hnone (hmark _ ih.1.enclose (by decide) (by decide))
  | assign op target value ih =>
    have hne : ∀ m, (Kind.mark m).isAssignment = false → op.mark ≠ m := by
      rintro m hm rfl
      rw [op.isAssignment] at hm
      cases hm
    exact hnone (hmark _ ih.1.enclose (hne _ rfl) (hne _ rfl))

end Paths

end ApexSyntax
