-- Trees with their tokens replaced. What builds a tree looks at none of its tokens, so
-- building from replaced tokens gives the tree with its tokens replaced.
import ApexSyntax.Tree.Builder

namespace ApexSyntax

/-! ## Trees -/

namespace Tree

mutual

/-- The tree with every token replaced. -/
def map (f : Token → Token) : Tree → Tree
  | node r ts => node r (mapAll f ts)
  | token t => token (f t)
  | skipped t => skipped (f t)

def mapAll (f : Token → Token) : List Tree → List Tree
  | [] => []
  | t :: ts => map f t :: mapAll f ts

end

variable (f : Token → Token)

theorem mapAll_eq_map (ts : List Tree) : mapAll f ts = ts.map (map f) := by
  induction ts with
  | nil => rfl
  | cons t ts ih => rw [mapAll, ih, List.map_cons]

@[simp] theorem map_node (r : Rule) (ts : List Tree) :
    (node r ts).map f = node r (ts.map (map f)) := by
  rw [map, mapAll_eq_map]

@[simp] theorem map_token (t : Token) : (token t).map f = token (f t) := by rw [map]

@[simp] theorem map_skipped (t : Token) : (skipped t).map f = skipped (f t) := by rw [map]

mutual

theorem map_id : ∀ t : Tree, t.map id = t
  | node r ts => by rw [map, mapAll_id ts]
  | token _ => by rw [map, id]
  | skipped _ => by rw [map, id]

theorem mapAll_id : ∀ ts : List Tree, mapAll id ts = ts
  | [] => rfl
  | t :: ts => by rw [mapAll, map_id t, mapAll_id ts]

end

@[simp] theorem isNode_map (t : Tree) : (t.map f).isNode = t.isNode := by
  cases t <;> simp [isNode, rule?]

end Tree

/-! ## Builders -/

def Frame.map (f : Token → Token) (g : Frame) : Frame := ⟨g.rule, g.children.map (Tree.map f)⟩

namespace Builder

/-- The builder with every token of its trees replaced. -/
def map (f : Token → Token) (b : Builder) : Builder :=
  ⟨b.ground.map (Tree.map f), b.frames.map (Frame.map f)⟩

variable (f : Token → Token)

@[simp] theorem mark_map (b : Builder) : (b.map f).mark = b.mark := by
  rcases b with ⟨ground, _ | ⟨g, rest⟩⟩
  · simp [map, mark, top]
  · simp [map, mark, top, Frame.map]

theorem map_add (b : Builder) (t : Tree) : (b.add t).map f = (b.map f).add (t.map f) := by
  rcases b with ⟨ground, _ | ⟨⟨r, children⟩, rest⟩⟩
  · simp [add, map]
  · simp [add, map, Frame.map]

theorem map_start (b : Builder) (r : Rule) : (b.start r).map f = (b.map f).start r := by
  simp [start, map, Frame.map]

theorem map_wrap (b : Builder) (mark : Nat) (r : Rule) :
    (b.wrap mark r).map f = (b.map f).wrap mark r := by
  rcases b with ⟨ground, _ | ⟨⟨s, children⟩, rest⟩⟩
  · simp [wrap, map, Frame.map]
  · simp [wrap, map, Frame.map]

/-- The node that closing a frame gives. -/
theorem map_frameNode (g : Frame) (inner : List Tree) :
    (Tree.node g.rule (g.children.toList ++ inner)).map f =
      .node (g.map f).rule ((g.map f).children.toList ++ inner.map (Tree.map f)) := by
  simp [Frame.map]

theorem map_finish (b : Builder) : b.finish.map f = (b.map f).finish := by
  rcases b with ⟨ground, _ | ⟨g, rest⟩⟩
  · rfl
  · have h := map_frameNode f g []
    rw [List.append_nil, List.map_nil, List.append_nil] at h
    rw [finish, map_add, h]
    rfl

theorem finishAll_map (ground : Array Tree) (inner : List Tree) (frames : List Frame) :
    finishAll (ground.map (Tree.map f)) (inner.map (Tree.map f)) (frames.map (Frame.map f)) =
      (finishAll ground inner frames).map (Tree.map f) := by
  induction frames generalizing inner with
  | nil => simp [finishAll]
  | cons g rest ih =>
    rw [List.map_cons, finishAll, finishAll, ← map_frameNode]
    exact ih [_]

theorem root_map (b : Builder) : (b.map f).root = b.root.map f := by
  have h : finishAll (b.map f).ground [] (b.map f).frames =
      (finishAll b.ground [] b.frames).map (Tree.map f) := finishAll_map f b.ground [] b.frames
  have hn : Tree.isNode ∘ Tree.map f = Tree.isNode := funext (Tree.isNode_map f)
  rw [root, root, h, List.find?_map, hn]
  cases (finishAll b.ground [] b.frames).find? Tree.isNode with
  | none => simp
  | some t => rfl

end Builder

end ApexSyntax
