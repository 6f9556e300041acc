-- Building a tree from left to right. Nodes are opened and closed around the
-- tokens between; a mark lets a node be opened later around what is already
-- there, which is how the left operand of an operator gets into its node.
import ApexSyntax.Tree.Basic

namespace ApexSyntax

/-- An open node. -/
structure Frame where
  rule : Rule
  children : Array Tree

structure Builder where
  /-- What stands outside of all open nodes. -/
  ground : Array Tree
  /-- The open nodes, the innermost first. -/
  frames : List Frame

namespace Builder

def empty : Builder := ⟨#[], []⟩

/-- What the innermost open node holds so far. -/
def top (b : Builder) : Array Tree :=
  match b.frames with
  | [] => b.ground
  | f :: _ => f.children

/-- A mark for a later `wrap`: the number of children so far. -/
def mark (b : Builder) : Nat := b.top.size

/-- Adds a finished tree to the innermost open node. -/
def add (b : Builder) (t : Tree) : Builder :=
  match b with
  | ⟨ground, []⟩ => ⟨ground.push t, []⟩
  | ⟨ground, ⟨r, children⟩ :: rest⟩ => ⟨ground, ⟨r, children.push t⟩ :: rest⟩

/-- Opens a node. -/
def start (b : Builder) (r : Rule) : Builder := ⟨b.ground, ⟨r, #[]⟩ :: b.frames⟩

/-- Opens a node around the children since a mark. -/
def wrap (b : Builder) (mark : Nat) (r : Rule) : Builder :=
  match b with
  | ⟨ground, []⟩ =>
    ⟨ground.shrink mark, [⟨r, ground.extract mark ground.size⟩]⟩
  | ⟨ground, ⟨s, children⟩ :: rest⟩ =>
    ⟨ground, ⟨r, children.extract mark children.size⟩ :: ⟨s, children.shrink mark⟩ :: rest⟩

/-- Closes the innermost open node, if there is one. -/
def finish (b : Builder) : Builder :=
  match b with
  | ⟨ground, []⟩ => ⟨ground, []⟩
  | ⟨ground, f :: rest⟩ => (⟨ground, rest⟩ : Builder).add (.node f.rule f.children.toList)

/-- Closes all open nodes; `inner` is what the last one leaves for the next. -/
def finishAll (ground : Array Tree) (inner : List Tree) : List Frame → List Tree
  | [] => ground.toList ++ inner
  | f :: rest => finishAll ground [.node f.rule (f.children.toList ++ inner)] rest

/-- The first node that was built, after closing all open ones. -/
def root (b : Builder) : Tree :=
  ((finishAll b.ground [] b.frames).find? Tree.isNode).getD (.node .compilationUnit [])

end Builder

end ApexSyntax
