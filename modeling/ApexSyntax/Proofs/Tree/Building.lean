-- Building a tree by any operations in any order. No token is lost, doubled or moved, however
-- often nodes are opened around what is already there, and however often a node is closed that
-- is not open.
import ApexSyntax.Proofs.Parser.Leaves

namespace ApexSyntax

namespace Builder

/-! ## Operations -/

/-- What is done to a builder before its tree is taken. -/
inductive Operation where
  | start (r : Rule)
  | wrap (mark : Nat) (r : Rule)
  | finish
  | token (t : Token)
  | skipped (t : Token)

def apply (b : Builder) : Operation → Builder
  | .start r => b.start r
  | .wrap mark r => b.wrap mark r
  | .finish => b.finish
  | .token t => b.add (.token t)
  | .skipped t => b.add (.skipped t)

/-- The builder after some operations. -/
def run (b : Builder) (ops : List Operation) : Builder := ops.foldl apply b

namespace Operation

/-- The token that is passed to the builder, with its kind. -/
def leaf? : Operation → Option Leaf
  | token t => some ⟨t, false⟩
  | skipped t => some ⟨t, true⟩
  | _ => none

/-- The number of open nodes behind an operation, from that before it. None can be closed when
none is open. -/
def depth? : Operation → Nat → Option Nat
  | start _, n | wrap _ _, n => some (n + 1)
  | finish, 0 => none
  | finish, n + 1 => some n
  | token _, n | skipped _, n => some n

end Operation

/-- The tokens that are passed to a builder, in order. -/
def passed (ops : List Operation) : List Leaf := ops.filterMap Operation.leaf?

/-- The number of open nodes behind some operations that close no node but open ones. -/
def depthFrom? (n : Nat) (ops : List Operation) : Option Nat :=
  ops.foldlM (fun n op => op.depth? n) n

/-- Every node is closed once, behind its opening, and no other is. -/
def Balanced (ops : List Operation) : Prop := depthFrom? 0 ops = some 0

instance (ops : List Operation) : Decidable (Balanced ops) :=
  inferInstanceAs (Decidable (depthFrom? 0 ops = some 0))

variable {b : Builder} {op : Operation} {ops : List Operation} {m n : Nat}

@[simp] theorem run_cons (b : Builder) (op : Operation) (ops : List Operation) :
    b.run (op :: ops) = (b.apply op).run ops := rfl

theorem run_append (b : Builder) (ops ops' : List Operation) :
    b.run (ops ++ ops') = (b.run ops).run ops' := List.foldl_append

theorem exists_of_depthFrom?_cons (h : depthFrom? n (op :: ops) = some m) :
    ∃ k, op.depth? n = some k ∧ depthFrom? k ops = some m := by
  rw [depthFrom?, List.foldlM_cons] at h
  exact Option.bind_eq_some_iff.1 h

/-! ## Leaves -/

/-- An operation adds the token that is passed, and leaves all others where they are. -/
theorem leaves_apply (b : Builder) (op : Operation) :
    (b.apply op).leaves = b.leaves ++ op.leaf?.toList := by
  cases op <;> simp [apply, Operation.leaf?]

theorem leaves_run (b : Builder) (ops : List Operation) :
    (b.run ops).leaves = b.leaves ++ passed ops := by
  induction ops generalizing b with
  | nil => exact (List.append_nil _).symm
  | cons op ops ih =>
    rw [run_cons, ih, leaves_apply, List.append_assoc, passed, passed, List.filterMap_cons]
    cases op.leaf? <;> rfl

/-! ## Frames on a plain stack -/

/-- All frames, the innermost first. What stands outside of all nodes is a frame like the
others, below them. -/
def stack (b : Builder) : List Frame := b.frames ++ [⟨.compilationUnit, b.ground⟩]

/-- The leaves of some frames from the bottom of the stack up. -/
def stackLeaves (fs : List Frame) : List Leaf :=
  fs.reverse.flatMap fun f => leavesOf f.children.toList

/-- Adds a tree to the frame on top, if there is one. -/
def addOnTop (t : Tree) : List Frame → List Frame
  | [] => []
  | f :: rest => ⟨f.rule, f.children.push t⟩ :: rest

/-- What an operation does to a plain stack, which may have no frames at all. A frame is taken
off only when there is one below it. -/
def Operation.onStack : Operation → List Frame → List Frame
  | start r, fs => ⟨r, #[]⟩ :: fs
  | wrap _ r, [] => [⟨r, #[]⟩]
  | wrap mark r, f :: rest =>
    ⟨r, f.children.extract mark f.children.size⟩ :: ⟨f.rule, f.children.shrink mark⟩ :: rest
  | finish, f :: g :: rest => addOnTop (.node f.rule f.children.toList) (g :: rest)
  | finish, fs => fs
  | token t, fs => addOnTop (.token t) fs
  | skipped t, fs => addOnTop (.skipped t) fs

theorem stack_add (b : Builder) (t : Tree) : (b.add t).stack = addOnTop t b.stack := by
  rcases b with ⟨ground, _ | ⟨f, rest⟩⟩ <;> rfl

theorem stack_apply (b : Builder) (op : Operation) : (b.apply op).stack = op.onStack b.stack := by
  cases op with
  | start r => rfl
  | wrap mark r => rcases b with ⟨ground, _ | ⟨f, rest⟩⟩ <;> rfl
  | finish =>
    rcases b with ⟨ground, _ | ⟨f, _ | ⟨g, rest⟩⟩⟩ <;> rfl
  | token t => exact stack_add b _
  | skipped t => exact stack_add b _

theorem stack_run (b : Builder) (ops : List Operation) :
    (b.run ops).stack = ops.foldl (fun fs op => op.onStack fs) b.stack := by
  induction ops generalizing b with
  | nil => rfl
  | cons op ops ih => rw [run_cons, ih, stack_apply, List.foldl_cons]

theorem leaves_eq_stackLeaves (b : Builder) : b.leaves = stackLeaves b.stack := by
  have h : ∀ fs : List Frame, frameLeaves fs = stackLeaves fs := by
    intro fs
    induction fs with
    | nil => rfl
    | cons f fs ih => simp [frameLeaves, ih, stackLeaves]
  simp [leaves, h, stack, stackLeaves]

/-! ## Balanced operations -/

/-- The builder as the inside of a node that was opened in another. -/
def within (b c : Builder) (r : Rule) : Builder :=
  ⟨c.ground, b.frames ++ ⟨r, b.ground⟩ :: c.frames⟩

/-- An operation that closes no node but open ones stays inside of the node around. -/
theorem apply_within (h : op.depth? b.frames.length = some n) (c : Builder) (r : Rule) :
    (b.within c r).apply op = (b.apply op).within c r ∧ (b.apply op).frames.length = n := by
  rcases b with ⟨ground, _ | ⟨f, rest⟩⟩
  · cases op with
    | finish => cases h
    | start | wrap | token | skipped => cases h; exact ⟨rfl, rfl⟩
  · cases op with
    | finish => cases h; cases rest <;> exact ⟨rfl, rfl⟩
    | start | wrap | token | skipped => cases h; exact ⟨rfl, rfl⟩

theorem run_within (h : depthFrom? b.frames.length ops = some n) (c : Builder) (r : Rule) :
    (b.within c r).run ops = (b.run ops).within c r ∧ (b.run ops).frames.length = n := by
  induction ops generalizing b with
  | nil => cases h; exact ⟨rfl, rfl⟩
  | cons op ops ih =>
    obtain ⟨k, hop, hops⟩ := exists_of_depthFrom?_cons h
    obtain ⟨hwithin, rfl⟩ := apply_within hop c r
    rw [run_cons, run_cons, hwithin]
    exact ih hops

theorem Balanced.frames_eq (h : Balanced ops) : (empty.run ops).frames = [] :=
  List.length_eq_zero_iff.1 (run_within (b := empty) h empty .compilationUnit).2

/-- A node that is opened, filled by balanced operations and closed holds what these build
outside of all nodes, wherever it stands. -/
theorem Balanced.run_node (h : Balanced ops) (b : Builder) (r : Rule) :
    b.run (.start r :: ops ++ [Operation.finish]) = b.add (.node r (empty.run ops).ground.toList) := by
  have hinside : (b.start r).run ops = (empty.run ops).within b r :=
    (run_within (b := empty) h b r).1
  calc b.run (.start r :: ops ++ [Operation.finish])
    _ = ((b.start r).run ops).finish := run_append b (.start r :: ops) [.finish]
    _ = ((empty.run ops).within b r).finish := by rw [hinside]
    _ = b.add (.node r (empty.run ops).ground.toList) := by
      rw [within, h.frames_eq]
      rfl

theorem root_of_ground {r : Rule} {ts : List Tree} (h : b = ⟨#[.node r ts], []⟩) :
    b.root = .node r ts := by
  rw [h]
  rfl

/-- Whatever is done to a builder, its frames from the bottom of the stack up have just the
tokens that were passed, in order and each with its kind. They are the frames of a plain stack,
whose first one is never taken off. Balanced operations leave no node open; if one node is all
that they leave, it is the tree, with all tokens. So it is when they are all about one node. -/
theorem building_keeps_tokens (ops : List Operation) :
    let b := empty.run ops
    (b.stack = ops.foldl (fun fs op => op.onStack fs) [⟨.compilationUnit, #[]⟩] ∧
      b.stack.getLast? = some ⟨.compilationUnit, b.ground⟩) ∧
    stackLeaves b.stack = passed ops ∧
    (Balanced ops → b.frames = [] ∧ ∀ r ts, b.ground = #[.node r ts] →
      b.root = .node r ts ∧ (Tree.node r ts).leaves = passed ops) ∧
    ∀ r inner, ops = .start r :: inner ++ [.finish] → Balanced inner →
      b.root = .node r (empty.run inner).ground.toList ∧ b.root.leaves = passed ops := by
  intro b
  have hleaves : b.leaves = passed ops := leaves_run empty ops
  have hsingle : ∀ r ts, b = ⟨#[.node r ts], []⟩ →
      b.root = .node r ts ∧ (Tree.node r ts).leaves = passed ops := by
    intro r ts hb
    exact ⟨root_of_ground hb, by rw [← hleaves, hb, leaves_single]⟩
  refine ⟨⟨stack_run empty ops, List.getLast?_concat⟩, ?_, fun h => ?_, ?_⟩
  · rw [← leaves_eq_stackLeaves, hleaves]
  · have hframes : b.frames = [] := h.frames_eq
    refine ⟨hframes, fun r ts hground => hsingle r ts ?_⟩
    rw [← hground, ← hframes]
  · rintro r inner rfl h
    obtain ⟨hroot, hall⟩ := hsingle r _ (h.run_node empty r)
    exact ⟨hroot, by rw [hroot, hall]⟩

/-- A sum as it is read: the node around it is opened when its left operand is there. -/
def sumOperations (a plus one : Token) : List Operation :=
  [.start .expression, .start .primaryExpression, .token a, .finish,
    .wrap 0 .arth2Expression, .token plus, .start .primaryExpression, .token one, .finish,
    .skipped plus, .finish, .finish]

theorem building_keeps_tokens_sum :
    let a : Token := ⟨.identifier, "a", "a", 1, 1, 0, 1, 0⟩
    let plus : Token := ⟨.mark .add, "+", "", 1, 2, 1, 1, 1⟩
    let one : Token := ⟨.literal .integer, "1", "", 1, 3, 2, 1, 2⟩
    let sum := Tree.node .arth2Expression [.node .primaryExpression [.token a], .token plus,
      .node .primaryExpression [.token one], .skipped plus]
    Balanced (sumOperations a plus one) ∧
      (empty.run (sumOperations a plus one)).ground = #[.node .expression [sum]] ∧
      (empty.run (sumOperations a plus one)).root = .node .expression [sum] ∧
      (Tree.node .expression [sum]).leaves =
        [⟨a, false⟩, ⟨plus, false⟩, ⟨one, false⟩, ⟨plus, true⟩] := by
  intro a plus one sum
  have hbalanced : Balanced (sumOperations a plus one) := by decide
  have hground : (empty.run (sumOperations a plus one)).ground = #[.node .expression [sum]] := rfl
  obtain ⟨-, -, hsingle, -⟩ := building_keeps_tokens (sumOperations a plus one)
  obtain ⟨hroot, hleaves⟩ := (hsingle hbalanced).2 .expression [sum] hground
  exact ⟨hbalanced, hground, hroot, hleaves⟩

end Builder

end ApexSyntax
