-- Syntax trees. The leaves of a tree are tokens: those that were matched, and
-- those that were skipped to recover from an error.
import ApexSyntax.Token.Basic
import ApexSyntax.Tree.Rule

namespace ApexSyntax

inductive Tree where
  | node (rule : Rule) (children : List Tree)
  | token (t : Token)
  | skipped (t : Token)
  deriving Repr

/-- A token of a tree, and whether it was skipped. -/
structure Leaf where
  token : Token
  isSkipped : Bool
  deriving DecidableEq, Repr

namespace Tree

/-- The rule of a node. -/
def rule? : Tree → Option Rule
  | node r _ => some r
  | _ => none

def children : Tree → List Tree
  | node _ ts => ts
  | _ => []

def isNode (t : Tree) : Bool := t.rule?.isSome

/-- The children that are nodes themselves. -/
def nodes (t : Tree) : List Tree := t.children.filter isNode

/-- The first child that comes from a rule. -/
def child? (t : Tree) (r : Rule) : Option Tree := t.nodes.find? fun c => c.rule? == some r

/-! ## Leaves -/

mutual

/-- The leaves of a tree, in front of others. -/
def leavesOnto (acc : List Leaf) : Tree → List Leaf
  | node _ ts => allLeavesOnto acc ts
  | token t => ⟨t, false⟩ :: acc
  | skipped t => ⟨t, true⟩ :: acc

def allLeavesOnto (acc : List Leaf) : List Tree → List Leaf
  | [] => acc
  | t :: ts => leavesOnto (allLeavesOnto acc ts) t

end

/-- The leaves of a tree from left to right. -/
def leaves (t : Tree) : List Leaf := leavesOnto [] t

/-- The number of skipped tokens. -/
def errorCount (t : Tree) : Nat := t.leaves.countP Leaf.isSkipped

/-- The joined texts of some leaves. The end of the text adds nothing. -/
def textOf (leaves : List Leaf) : String :=
  leaves.foldl (fun acc l => if l.token.isEof then acc else acc ++ l.token.text) ""

/-- The joined texts of all tokens of a tree. -/
def text (t : Tree) : String := textOf t.leaves

mutual

theorem leavesOnto_eq (acc : List Leaf) : ∀ t : Tree, leavesOnto acc t = leavesOnto [] t ++ acc
  | node _ ts => by
    rw [leavesOnto, leavesOnto]
    exact allLeavesOnto_eq acc ts
  | token _ => rfl
  | skipped _ => rfl

theorem allLeavesOnto_eq (acc : List Leaf) :
    ∀ ts : List Tree, allLeavesOnto acc ts = allLeavesOnto [] ts ++ acc
  | [] => rfl
  | t :: ts => by
    rw [allLeavesOnto, allLeavesOnto, leavesOnto_eq, allLeavesOnto_eq acc ts,
      leavesOnto_eq (allLeavesOnto [] ts), List.append_assoc]

end

@[simp] theorem leaves_token (t : Token) : (token t).leaves = [⟨t, false⟩] := rfl

@[simp] theorem leaves_skipped (t : Token) : (skipped t).leaves = [⟨t, true⟩] := rfl

theorem allLeavesOnto_nil_eq_flatMap (ts : List Tree) :
    allLeavesOnto [] ts = ts.flatMap leaves := by
  induction ts with
  | nil => rfl
  | cons t ts ih => rw [allLeavesOnto, leavesOnto_eq, ih]; rfl

/-- The leaves of a node are the leaves of its children in order. -/
@[simp] theorem leaves_node (r : Rule) (ts : List Tree) :
    (node r ts).leaves = ts.flatMap leaves := by
  rw [leaves, leavesOnto, allLeavesOnto_nil_eq_flatMap]

/-! ## Search -/

mutual

/-- The nodes that come from a rule, in front of others. -/
def findOnto (r : Rule) (acc : List Tree) : Tree → List Tree
  | node r' ts =>
    if r' = r then node r' ts :: findAllOnto r acc ts else findAllOnto r acc ts
  | token _ => acc
  | skipped _ => acc

def findAllOnto (r : Rule) (acc : List Tree) : List Tree → List Tree
  | [] => acc
  | t :: ts => findOnto r (findAllOnto r acc ts) t

end

/-- All nodes that come from a rule, each before those inside of it. -/
def findAll (t : Tree) (r : Rule) : List Tree := findOnto r [] t

/-! ## Written trees -/

/-- A text between double quotes, with quotes and backslashes escaped. -/
def quoteText (text : String) : String :=
  String.ofList ('"' :: text.toList.flatMap (fun c =>
    if c = '"' ∨ c = '\\' then ['\\', c] else [c]) ++ ['"'])

mutual

/-- Writes a tree behind a text. -/
def renderOnto (acc : String) : Tree → String
  | node r ts => renderAllOnto (acc ++ "(" ++ r.name) ts ++ ")"
  | token t => acc ++ quoteText t.text
  | skipped t => acc ++ "!" ++ quoteText t.text

/-- Writes trees behind a text, with a blank before each. -/
def renderAllOnto (acc : String) : List Tree → String
  | [] => acc
  | t :: ts => renderAllOnto (renderOnto (acc ++ " ") t) ts

end

/-- The written form of a tree: a node as its rule and its children between
parentheses, a token as its text between quotes, a skipped one with a mark. -/
def render (t : Tree) : String := renderOnto "" t

end Tree

end ApexSyntax
