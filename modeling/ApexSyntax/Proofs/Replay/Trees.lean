-- Two trees that are built in one way on top of two others. Only what stands above these
-- is compared, token by token through a map; it is enough to know how many children the
-- innermost open node has.
import ApexSyntax.Proofs.Parser.Shape
import ApexSyntax.Proofs.Parser.Trees

namespace ApexSyntax

/-- Trees that agree through a map of their tokens. -/
def SameThrough (f : Token → Token) (ts us : List Tree) : Prop :=
  us.map (Tree.map f) = ts.map (Tree.map f)

namespace SameThrough

variable {f : Token → Token} {ts ts' us us' : List Tree}

/-- Where no token is changed, the trees are the same. -/
theorem eq (h : SameThrough id ts us) : us = ts := by
  have hmap : Tree.map id = id := funext Tree.map_id
  rwa [SameThrough, hmap, List.map_id, List.map_id] at h

theorem append (h : SameThrough f ts us) (h' : SameThrough f ts' us') :
    SameThrough f (ts ++ ts') (us ++ us') := by
  rw [SameThrough, List.map_append, List.map_append, h, h']

theorem length_eq (h : SameThrough f ts us) : us.length = ts.length := by
  simpa using congrArg List.length h

theorem take (h : SameThrough f ts us) (n : Nat) : SameThrough f (ts.take n) (us.take n) := by
  rw [SameThrough, List.map_take, List.map_take, h]

theorem drop (h : SameThrough f ts us) (n : Nat) : SameThrough f (ts.drop n) (us.drop n) := by
  rw [SameThrough, List.map_drop, List.map_drop, h]

theorem node (h : SameThrough f ts us) (r : Rule) : SameThrough f [.node r ts] [.node r us] := by
  simp only [SameThrough, List.map_cons, List.map_nil, Tree.map_node] at h ⊢
  rw [h]

theorem token {t u : Token} (h : f u = f t) : SameThrough f [.token t] [.token u] := by
  simp [SameThrough, h]

end SameThrough

namespace Builder

/-- Opening a node behind a mark splits the children of the innermost open node. -/
theorem wrap_addAll_start (b : Builder) (s r : Rule) (ts : List Tree) (mark : Nat) :
    ((b.start s).addAll ts).wrap mark r =
      (((b.start s).addAll (ts.take mark)).start r).addAll (ts.drop mark) := by
  have hdrop : ts.toArray.extract mark ts.length = (ts.drop mark).toArray := by
    apply Array.toList_inj.1
    rw [Array.toList_extract, List.extract_eq_take_drop]
    exact List.take_of_length_le (by simp)
  simp only [start, addAll_frame, wrap]
  simp [hdrop, Array.shrink_eq_take]

/-- Two trees with the same nodes open above two others, and the same trees in them. -/
inductive Beside (f : Token → Token) (b c : Builder) : Nat → Builder → Builder → Prop
  | base {ts us : List Tree} : SameThrough f ts us → Beside f b c 0 (b.addAll ts) (c.addAll us)
  | opened {k : Nat} {t u : Builder} {ts us : List Tree} (r : Rule) :
      Beside f b c k t u → SameThrough f ts us →
      Beside f b c (k + 1) ((t.start r).addAll ts) ((u.start r).addAll us)

namespace Beside

variable {f : Token → Token} {b c t u : Builder} {k : Nat} {ts us : List Tree}

theorem refl (f : Token → Token) (b c : Builder) : Beside f b c 0 b c :=
  .base (show SameThrough f [] [] from rfl)

theorem addAll (h : Beside f b c k t u) (hs : SameThrough f ts us) :
    Beside f b c k (t.addAll ts) (u.addAll us) := by
  cases h with
  | base h =>
    rw [← addAll_append, ← addAll_append]
    exact .base (h.append hs)
  | opened r hb h =>
    rw [← addAll_append, ← addAll_append]
    exact .opened r hb (h.append hs)

theorem start (h : Beside f b c k t u) (r : Rule) : Beside f b c (k + 1) (t.start r) (u.start r) :=
  .opened r h (show SameThrough f [] [] from rfl)

theorem finish (h : Beside f b c (k + 1) t u) : Beside f b c k t.finish u.finish := by
  cases h with
  | opened r hb h =>
    rw [finish_addAll_start, finish_addAll_start]
    exact hb.addAll (h.node r)

theorem wrap (h : Beside f b c (k + 1) t u) (mark : Nat) (r : Rule) :
    Beside f b c (k + 2) (t.wrap mark r) (u.wrap mark r) := by
  cases h with
  | opened s hb h =>
    rw [wrap_addAll_start, wrap_addAll_start]
    exact .opened r (.opened s hb (h.take mark)) (h.drop mark)

theorem mark_eq (h : Beside f b c (k + 1) t u) : u.mark = t.mark := by
  cases h with
  | opened r hb h =>
    simp only [Builder.start, addAll_frame, mark, top]
    simp [h.length_eq]

/-- Where no token is changed and the trees stand on the same one, they are the same. -/
theorem eq (h : Beside id b b k t u) : u = t := by
  induction h with
  | base h => rw [h.eq]
  | opened r _ h ih => rw [ih, h.eq]

/-- What is left behind all nodes that were opened. -/
theorem added (h : Beside f b c 0 t u) :
    ∃ ts us, t = b.addAll ts ∧ u = c.addAll us ∧ SameThrough f ts us := by
  cases h with
  | base h => exact ⟨_, _, rfl, rfl, h⟩

end Beside

end Builder

end ApexSyntax
