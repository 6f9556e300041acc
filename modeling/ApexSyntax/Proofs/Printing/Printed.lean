-- Parts of a text as they are printed: their tokens together with the trees that they are
-- read as. Parts are read one behind the other, each in front of what is printed behind it.
import ApexSyntax.Proofs.Printing.Pieces

namespace ApexSyntax

open ApexSyntax.Parser

/-- A word as the lexer reads it: a keyword, if it is one. -/
def Piece.spelled (word : String) : Piece :=
  ⟨(Keyword.ofWord? word).elim .identifier .keyword, word, false⟩

/-- The tokens of a part, and the trees that they are read as. -/
structure Printed where
  pieces : List Piece
  outlines : List Outline

namespace Printed

/-- Tokens that stand for themselves. -/
def flat (ps : List Piece) : Printed := ⟨ps, ps.map Piece.outline⟩

def nothing : Printed := flat []

def mark (m : Mark) : Printed := flat [.mark m]

def word (w : String) : Printed := flat [.spelled w]

def node (rule : Rule) (x : Printed) : Printed := ⟨x.pieces, [.node rule x.outlines]⟩

instance : Append Printed := ⟨fun x y => ⟨x.pieces ++ y.pieces, x.outlines ++ y.outlines⟩⟩

/-- Parts one behind the other. -/
def join : List Printed → Printed
  | [] => nothing
  | [x] => x
  | x :: y :: xs => x ++ join (y :: xs)

/-- Parts with a comma in front of each. -/
def commas : List Printed → Printed
  | [] => nothing
  | x :: xs => join [mark .comma, x, commas xs]

/-- Parts with commas between them. -/
def list (x : Printed) (xs : List Printed) : Printed := join [x, commas xs]

/-! ## Reading printed parts -/

variable {x y : Printed} {xs : List Printed} {ss ts : List Step} {s : Step} {rest : List Piece}
  {a b : Piece} {e : Expected} {rule : Rule}

/-- From every parser in front of the part, the steps read it. -/
def ReadBy (x : Printed) (ss : List Step) (rest : List Piece) : Prop :=
  Matches ss x.pieces x.outlines rest

theorem readBy_nothing : nothing.ReadBy [] rest := Matches.nothing

theorem readBy_take : (flat [a]).ReadBy [.take 1] rest := Matches.take

theorem readBy_takeTwo : (flat [a, b]).ReadBy [.take 2] rest := Matches.takeTwo

theorem readBy_expect (h : e.accepts a.token = true) : (flat [a]).ReadBy [.expect e] rest :=
  Matches.expect h

theorem readBy_mark (m : Mark) : (mark m).ReadBy [.expect (.mark m)] rest := Matches.mark m

theorem readBy_spelled (w : String) : (word w).ReadBy [.expect (.spelled w)] rest :=
  Matches.expect (beq_self_eq_true w)

theorem ReadBy.append (h : x.ReadBy ss (y.pieces ++ rest)) (h' : y.ReadBy ts rest) :
    (x ++ y).ReadBy (ss ++ ts) rest := Matches.append h h'

/-- Steps that read nothing may stand behind. -/
theorem ReadBy.idle (h : x.ReadBy ss rest) (h' : nothing.ReadBy ts rest) :
    x.ReadBy (ss ++ ts) rest := by
  have hboth : Matches (ss ++ ts) (x.pieces ++ []) (x.outlines ++ []) rest := Matches.append h h'
  rwa [List.append_nil, List.append_nil] at hboth

theorem pieces_node : (node rule x).pieces = x.pieces := rfl

theorem pieces_join : (join (x :: y :: xs)).pieces ++ rest =
    x.pieces ++ ((join (y :: xs)).pieces ++ rest) := List.append_assoc ..

theorem ReadBy.cons (h : x.ReadBy [s] ((join (y :: xs)).pieces ++ rest))
    (h' : (join (y :: xs)).ReadBy ss rest) : (join (x :: y :: xs)).ReadBy (s :: ss) rest :=
  h.append h'

theorem ReadBy.node (h : x.ReadBy ss rest) :
    (node rule x).ReadBy (.start rule :: ss ++ [Step.finish]) rest := Matches.node h

/-- A part of the grammar reads what its steps read. -/
theorem ReadBy.part (h : x.ReadBy ss rest)
    (hs : ∀ p : Parser, p.lookahead.Before (x.pieces ++ rest) → p.perform s = (p, .ok ss)) :
    x.ReadBy [s] rest := Matches.part h hs

/-- Parts with commas between them, when each is read in front of a comma and in front
of what comes behind the last. -/
theorem list_readBy {α : Type} {f : α → Printed} {c : α} {cs : List α} {F : List Piece → Prop}
    {again : Step}
    (hmore : ∀ p : Parser, p.perform again =
      (p, .ok (if p.lookahead.atMark .comma then [.take 1, s, again] else [])))
    (hcomma : ∀ ps, F (.mark .comma :: ps))
    (h : ∀ d ∈ c :: cs, ∀ rest, F rest → (f d).ReadBy [s] rest) (hrest : F rest)
    (hend : (pieceAt rest 0).kind ≠ .mark .comma) :
    (list (f c) (cs.map f)).ReadBy [s, again] rest := by
  obtain ⟨hc, hcs⟩ := List.forall_mem_cons.1 h
  have hcommas : (commas (cs.map f)).ReadBy [again] rest ∧
      F ((commas (cs.map f)).pieces ++ rest) := by
    clear h
    induction cs with
    | nil =>
      refine ⟨readBy_nothing.part fun p hp => ?_, hrest⟩
      rw [hmore, if_neg]
      rw [Lookahead.atMark, beq_iff_eq, hp.kind_eq 0]
      exact hend
    | cons d ds ih =>
      obtain ⟨hd, hds⟩ := List.forall_mem_cons.1 hcs
      obtain ⟨hread, hF⟩ := ih hds
      have hpart : (join [mark .comma, f d, commas (ds.map f)]).ReadBy
          [.take 1, s, again] rest := .cons readBy_take (.cons (hd _ hF) hread)
      refine ⟨hpart.part fun p hp => ?_, hcomma _⟩
      have hk : p.lookahead.kind 0 = .mark .comma := hp.kind_eq 0
      rw [hmore, Lookahead.atMark, hk]
      rfl
  exact .cons (hc _ hcommas.2) hcommas.1

end Printed

end ApexSyntax
