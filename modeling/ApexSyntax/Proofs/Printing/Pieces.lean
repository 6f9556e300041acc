-- Printed tokens and what reading them gives. A piece is a token as it is printed,
-- without its place in a text; an outline is a tree of pieces. Steps match pieces
-- when they read exactly these from every parser that stands in front of them,
-- whatever comes behind, and add trees with known outlines.
import ApexSyntax.Proofs.Parser.Lossless
import ApexSyntax.Proofs.Parser.Termination

namespace ApexSyntax

/-! ## Pieces and outlines -/

/-- A token as it is printed. -/
structure Piece where
  kind : Kind
  word : String
  /-- The next token stands right behind it. -/
  touches : Bool
  deriving DecidableEq, Repr

namespace Piece

def mark (m : Mark) : Piece := ⟨.mark m, "", false⟩

/-- A mark that the next one touches. -/
def touching (m : Mark) : Piece := ⟨.mark m, "", true⟩

def named (name : String) : Piece := ⟨.identifier, name, false⟩

/-- A token that is printed as the piece. -/
def token (a : Piece) : Token :=
  { kind := a.kind, text := "", word := a.word, line := 0, column := 0, start := 0, length := 0,
    index := 0 }

end Piece

/-- A tree of which the tokens have no place in a text. -/
inductive Outline where
  | node (rule : Rule) (children : List Outline)
  | token (kind : Kind) (word : String)
  | skipped (kind : Kind) (word : String)

def Piece.outline (a : Piece) : Outline := .token a.kind a.word

def Outline.mark (m : Mark) : Outline := .token (.mark m) ""

namespace Tree

mutual

def outline : Tree → Outline
  | node r ts => .node r (outlines ts)
  | token t => .token t.kind t.word
  | skipped t => .skipped t.kind t.word

def outlines : List Tree → List Outline
  | [] => []
  | t :: ts => outline t :: outlines ts

end

@[simp] theorem outlines_append (ts us : List Tree) :
    outlines (ts ++ us) = outlines ts ++ outlines us := by
  induction ts with
  | nil => rfl
  | cons t ts ih => rw [List.cons_append, outlines, outlines, ih, List.cons_append]

end Tree

/-! ## Tokens in front of a parser -/

namespace Lookahead

def next (v : Lookahead) : Lookahead := ⟨v.stream, v.position + 1⟩

/-- The tokens ahead, up to the end of the text, are printed as the pieces. -/
def Before : Lookahead → List Piece → Prop
  | v, [] => v.kind 0 = .eof
  | v, a :: ps =>
    (v.kind 0 = a.kind ∧ v.word 0 = a.word ∧ a.kind ≠ .eof ∧
      (a.touches = true → v.touches 0 = true)) ∧ v.next.Before ps

instance decidableBefore : (v : Lookahead) → (ps : List Piece) → Decidable (v.Before ps)
  | v, [] => inferInstanceAs (Decidable (v.kind 0 = .eof))
  | v, _ :: ps =>
    have := decidableBefore v.next ps
    inferInstanceAs (Decidable (_ ∧ _))

theorem nth_next (v : Lookahead) (n : Nat) : v.next.nth n = v.nth (n + 1) := by
  rw [nth, nth, next, Nat.add_assoc, Nat.add_comm 1]

end Lookahead

/-- The token that a piece stands for; behind all pieces, the end of the text. -/
def pieceAt (ps : List Piece) (n : Nat) : Token :=
  (ps[n]?).elim (.endOfText 0 0 0 0) Piece.token

@[simp] theorem pieceAt_nil (n : Nat) : pieceAt [] n = .endOfText 0 0 0 0 := rfl

@[simp] theorem pieceAt_zero (a : Piece) (ps : List Piece) : pieceAt (a :: ps) 0 = a.token := rfl

@[simp] theorem pieceAt_succ (a : Piece) (ps : List Piece) (n : Nat) :
    pieceAt (a :: ps) (n + 1) = pieceAt ps n := rfl

namespace Lookahead.Before

variable {v : Lookahead} {ps : List Piece} {a : Piece}

theorem nth_eq (h : v.Before ps) (n : Nat) :
    v.kind n = (pieceAt ps n).kind ∧ v.word n = (pieceAt ps n).word := by
  induction ps generalizing v n with
  | nil =>
    have hle : v.stream.visible.size ≤ v.position + n := by
      have h0 := (v.stream.kind_nth_eq_eof_iff (v.position + 0)).1 h
      omega
    have hn : v.nth n = v.stream.eof := TokenStream.nth_of_le hle
    exact ⟨by rw [kind, hn]; exact v.stream.kind_eof, by rw [word, hn]; exact v.stream.word_eof⟩
  | cons a ps ih =>
    cases n with
    | zero => exact ⟨h.1.1, h.1.2.1⟩
    | succ n =>
      have hn := ih h.2 n
      rw [kind, word, nth_next] at hn
      exact hn

theorem kind_eq (h : v.Before ps) (n : Nat) : v.kind n = (pieceAt ps n).kind := (h.nth_eq n).1

theorem word_eq (h : v.Before ps) (n : Nat) : v.word n = (pieceAt ps n).word := (h.nth_eq n).2

theorem isIdentifier_eq (h : v.Before ps) (n : Nat) :
    v.isIdentifier n = (pieceAt ps n).isIdentifier := by
  have hk := h.kind_eq n
  rw [kind] at hk
  rw [isIdentifier, Token.isIdentifier, Token.isIdentifier, hk]

theorem isTypeName_eq (h : v.Before ps) (n : Nat) :
    v.isTypeName n = (pieceAt ps n).isTypeName := by
  have hk := h.kind_eq n
  have hi := h.isIdentifier_eq n
  rw [kind] at hk
  rw [isIdentifier] at hi
  rw [isTypeName, Token.isTypeName, Token.isTypeName, hk, hi]

theorem isWord_eq (h : v.Before ps) (n : Nat) : v.isWord n = (pieceAt ps n).isWord := by
  have hw := h.word_eq n
  rw [word] at hw
  rw [isWord, Token.isWord, Token.isWord, hw]

theorem accepts_eq (h : v.Before ps) (e : Expected) (n : Nat) :
    e.accepts (v.nth n) = e.accepts (pieceAt ps n) := by
  cases e with
  | kind k => simp only [Expected.accepts, ← h.kind_eq n, kind]
  | identifier => exact h.isIdentifier_eq n
  | word => exact h.isWord_eq n
  | spelled w => simp only [Expected.accepts, ← h.word_eq n, word]

/-- Further ahead stand the later pieces. -/
theorem drop (h : v.Before ps) {n : Nat} (hn : n ≤ ps.length) :
    Before ⟨v.stream, v.position + n⟩ (ps.drop n) := by
  induction n generalizing v ps with
  | zero => exact h
  | succ n ih =>
    cases ps with
    | nil => cases hn
    | cons a ps =>
      have hnext := ih h.2 (Nat.le_of_succ_le_succ hn)
      rwa [next, Nat.add_assoc, Nat.add_comm 1] at hnext

/-- There are as many tokens ahead as pieces. -/
theorem left_eq (h : v.Before ps) : v.left = ps.length := by
  induction ps generalizing v with
  | nil =>
    have hle : v.stream.visible.size ≤ v.position + 0 := (v.stream.kind_nth_eq_eof_iff _).1 h
    exact Nat.sub_eq_zero_of_le hle
  | cons a ps ih =>
    have hlt : 0 < v.left := lt_left (by rw [h.1.1]; exact h.1.2.2.1)
    have hnext : v.stream.visible.size - (v.position + 1) = ps.length := ih h.2
    rw [left] at hlt ⊢
    rw [List.length_cons]
    omega

end Lookahead.Before

namespace Parser

variable {p q r : Parser} {ps qs rest : List Piece} {os us : List Outline} {a : Piece}
  {ss ts : List Step} {rule : Rule} {e : Expected}

theorem lookahead_take_of_before (h : p.lookahead.Before (a :: ps)) :
    p.take.lookahead = p.lookahead.next := by
  have hk : p.lookahead.kind 0 ≠ .eof := by
    rw [h.1.1]
    exact h.1.2.2.1
  have hb := behind_of_lt ((kind_ne_eof_iff p).1 hk)
  rw [lookahead, stream_take, position_take, hb]
  rfl

/-! ## What reading gives -/

/-- A parser has read up to some pieces, without a report, and has added trees with
some outlines. -/
structure Gives (p : Parser) (os : List Outline) (rest : List Piece) (q : Parser) : Prop where
  before : q.lookahead.Before rest
  adds : ∃ ts, q.tree = p.tree.addAll ts ∧ Tree.outlines ts = os
  stream : q.stream = p.stream
  listeners : q.listeners = p.listeners
  errorCount : q.errorCount = p.errorCount
  recovering : p.recovering = false → q.recovering = false

namespace Gives

theorem refl (h : p.lookahead.Before rest) : p.Gives [] rest p :=
  ⟨h, ⟨[], rfl, rfl⟩, rfl, rfl, rfl, id⟩

theorem trans (h : p.Gives os qs q) (h' : q.Gives us rest r) : p.Gives (os ++ us) rest r where
  before := h'.before
  adds := by
    obtain ⟨ts, hq, rfl⟩ := h.adds
    obtain ⟨us, hr, rfl⟩ := h'.adds
    exact ⟨ts ++ us, by rw [hr, hq, Builder.addAll_append], Tree.outlines_append ts us⟩
  stream := h'.stream.trans h.stream
  listeners := h'.listeners.trans h.listeners
  errorCount := h'.errorCount.trans h.errorCount
  recovering hp := h'.recovering (h.recovering hp)

theorem take (h : p.lookahead.Before (a :: rest)) : p.Gives [a.outline] rest p.take where
  before := by
    rw [lookahead_take_of_before h]
    exact h.2
  adds := by
    refine ⟨[.token p.current], rfl, ?_⟩
    have hk : p.current.kind = a.kind := h.1.1
    have hw : p.current.word = a.word := h.1.2.1
    rw [Tree.outlines, Tree.outlines, Tree.outline, hk, hw, Piece.outline]
  stream := rfl
  listeners := rfl
  errorCount := rfl
  recovering _ := rfl

/-- A node that is opened, filled and closed. -/
theorem node (h : (p.build (·.start rule)).Gives os rest q) :
    p.Gives [.node rule os] rest (q.build (·.finish)) where
  before := h.before
  adds := by
    obtain ⟨ts, hq, rfl⟩ := h.adds
    refine ⟨[.node rule ts], ?_, by rw [Tree.outlines, Tree.outlines, Tree.outline]⟩
    rw [tree_build, hq, tree_build, Builder.finish_addAll_start]
    rfl
  stream := h.stream
  listeners := h.listeners
  errorCount := h.errorCount
  recovering := h.recovering

/-- A node that is opened around what was read before. -/
theorem wrap (h : p.Gives os qs q) (h' : (q.build (·.wrap p.tree.mark rule)).Gives us rest r) :
    p.Gives [.node rule (os ++ us)] rest (r.build (·.finish)) where
  before := h'.before
  adds := by
    obtain ⟨ts, hq, rfl⟩ := h.adds
    obtain ⟨us, hr, rfl⟩ := h'.adds
    refine ⟨[.node rule (ts ++ us)], ?_, ?_⟩
    · rw [tree_build, hr, tree_build, hq, Builder.wrap_addAll, ← Builder.addAll_append,
        Builder.finish_addAll_start]
      rfl
    · rw [Tree.outlines, Tree.outlines, Tree.outline, Tree.outlines_append]
  stream := h'.stream.trans h.stream
  listeners := h'.listeners.trans h.listeners
  errorCount := h'.errorCount.trans h.errorCount
  recovering hp := h'.recovering (h.recovering hp)

end Gives

/-! ## Steps that match pieces -/

theorem runs_one {s : Step} (h : p.perform s = (q, .ok [])) : Runs [s] p q :=
  .perform trivial h (.done q) (.done q)

/-- A part runs as the steps that it consists of. -/
theorem runs_part {s : Step} (h : p.perform s = (p, .ok ss)) (hs : Runs ss p q) : Runs [s] p q :=
  .perform trivial h hs (.done q)

theorem perform_expect (h : e.accepts p.current = true) :
    p.perform (.expect e) = (p.take, .ok []) := by
  simp only [perform, expect, h, if_true]

end Parser

open ApexSyntax.Parser

/-- From every parser in front of the pieces, the steps read them, and add trees with
the outlines. -/
def Matches (ss : List Step) (ps : List Piece) (os : List Outline) (rest : List Piece) : Prop :=
  ∀ p : Parser, p.lookahead.Before (ps ++ rest) → ∃ q, Runs ss p q ∧ p.Gives os rest q

namespace Matches

variable {ss ts : List Step} {ps qs rest : List Piece} {os us : List Outline} {a b : Piece}
  {rule : Rule} {e : Expected} {s : Step}

theorem nothing : Matches [] [] [] rest := fun p h => ⟨p, .done p, .refl h⟩

theorem append (h : Matches ss ps os (qs ++ rest)) (h' : Matches ts qs us rest) :
    Matches (ss ++ ts) (ps ++ qs) (os ++ us) rest := by
  intro p hp
  rw [List.append_assoc] at hp
  obtain ⟨q, hq, hgq⟩ := h p hp
  obtain ⟨r, hr, hgr⟩ := h' q hgq.before
  exact ⟨r, hq.append hr, hgq.trans hgr⟩

theorem cons (h : Matches [s] ps os (qs ++ rest)) (h' : Matches ts qs us rest) :
    Matches (s :: ts) (ps ++ qs) (os ++ us) rest := h.append h'

theorem take : Matches [.take 1] [a] [a.outline] rest :=
  fun p h => ⟨p.take, runs_one rfl, .take h⟩

theorem takeTwo : Matches [.take 2] [a, b] [a.outline, b.outline] rest :=
  fun p h => ⟨p.take.take, runs_one rfl, (Gives.take h).trans (.take (Gives.take h).before)⟩

theorem expect (h : e.accepts a.token = true) : Matches [.expect e] [a] [a.outline] rest := by
  intro p hp
  have ha : e.accepts p.current = true := (hp.accepts_eq e 0).trans h
  exact ⟨p.take, runs_one (perform_expect ha), .take hp⟩

/-- An expected mark. -/
theorem mark (m : Mark) : Matches [.expect (.mark m)] [.mark m] [.mark m] rest :=
  expect (beq_self_eq_true (Kind.mark m))

theorem node (h : Matches ss ps os rest) :
    Matches (.start rule :: ss ++ [Step.finish]) ps [.node rule os] rest := by
  intro p hp
  obtain ⟨q, hq, hg⟩ := h (p.build (·.start rule)) hp
  exact ⟨q.build (·.finish), (Leads.append (runs_one rfl) hq).append (runs_one rfl), hg.node⟩

/-- A part matches what the steps match that it consists of in front of the pieces. -/
theorem part (h : Matches ss ps os rest)
    (hs : ∀ p : Parser, p.lookahead.Before (ps ++ rest) → p.perform s = (p, .ok ss)) :
    Matches [s] ps os rest := by
  intro p hp
  obtain ⟨q, hq, hg⟩ := h p hp
  exact ⟨q, runs_part (hs p hp) hq, hg⟩

theorem soql {part : QueryPart} (h : Matches ss ps os rest)
    (hs : ∀ v : Lookahead, v.Before (ps ++ rest) → part.expand v = ss) :
    Matches [.soql part] ps os rest :=
  h.part fun p hp => by rw [perform, hs _ hp]

theorem expr {part : ExprPart} (h : Matches ss ps os rest)
    (hs : ∀ (v : Lookahead) (mark : Nat), v.Before (ps ++ rest) → part.expand v mark = ss) :
    Matches [.expr part] ps os rest :=
  h.part fun p hp => by rw [perform, hs _ _ hp]

end Matches

/-! ## Calls -/

namespace Parser

variable {p q : Parser} {ss : List Step}

/-- Steps that lead from one parser to another do so with some fuel. -/
theorem exists_runWithin (h : Runs ss p q) : ∃ n, runWithin n ss p = (q, .finished) := by
  induction h with
  | done p => exact ⟨0, runWithin_nil 0 p⟩
  | perform _ hp _ _ ih1 ih2 =>
    obtain ⟨n, hn⟩ := ih1
    obtain ⟨m, hm⟩ := ih2
    refine ⟨n + m + 1, ?_⟩
    rw [runWithin, hp]
    exact runWithin_append hn hm

/-- A run of the step of an entry that ends is the run of the call. -/
theorem run_of_runWithin {entry : Entry} {n : Nat} {ending : Ending}
    (h : runWithin n [entry.step] p.fresh = (q, ending)) (hne : ending ≠ .exhausted) :
    p.run entry = (q, ending) := by
  have h1 := runWithin_add (show runWithin p.fuel [entry.step] p.fresh = p.run entry from rfl)
    (run_ne_exhausted p entry) n
  have h2 := runWithin_add h hne p.fuel
  rw [Nat.add_comm] at h2
  exact h1.symm.trans h2

/-- A call ends in the only parser that its entry leads to. -/
theorem run_of_runs {entry : Entry} (h : Runs [entry.step] p.fresh q) :
    p.run entry = (q, .finished) := by
  obtain ⟨n, hn⟩ := exists_runWithin h
  exact run_of_runWithin hn nofun

/-- A call reads back an outline: nothing is reported, all tokens up to the end of the
text are read, and the tree that is returned has the outline, with these tokens as
its leaves. -/
def ReadsBack (p : Parser) (entry : Entry) (o : Outline) : Prop :=
  ∃ tree, p.parse entry = ({ p with
      position := p.stream.visible.size, recovering := false, tree := Builder.empty }, .ok tree) ∧
    tree.outline = o ∧ tokensOf tree.leaves = p.stream.visible.toList.drop p.position

theorem readsBack_of_gives {entry : Entry} {o : Outline} (hlt : p.position < p.stream.visible.size)
    (h : Runs [entry.step] p.fresh q) (hg : p.fresh.Gives [o] [] q) : p.ReadsBack entry o := by
  have hrun := run_of_runs h
  obtain ⟨tree, hc, hm, _⟩ := exists_call_of_finished hrun
  have hend : q.stream.visible.size ≤ q.position :=
    (q.stream.kind_nth_eq_eof_iff (q.position + 0)).1 hg.before
  have hstream : q.stream = p.stream := hg.stream
  have hpos : q.position = p.stream.visible.size := by
    have hwithin : q.position = p.position ∨ q.position ≤ p.stream.visible.size := hm.within
    rw [hstream] at hend
    omega
  refine ⟨tree, ?_, ?_, hc.tokens_of_atEnd hm hend⟩
  · have hl : q.listeners = p.listeners := hg.listeners
    have he : q.errorCount = p.errorCount := hg.errorCount
    have hr : q.recovering = false := hg.recovering rfl
    rw [hc.returns, hstream, hpos, hl, he, hr]
  · obtain ⟨ts, hq, hts⟩ := hg.adds
    have hroot := hc.oneRoot
    have htree : (p.run entry).1.tree = ⟨ts.toArray, []⟩ := by
      rw [hrun, hq]
      exact (Builder.addAll_ground #[] ts).trans (by simp)
    rw [htree, Builder.mk.injEq] at hroot
    obtain rfl : ts = [tree] := congrArg Array.toList hroot.1
    exact (List.cons.inj hts).1

/-- A call reads back what its entry matches up to the end of the text. -/
theorem readsBack_of_matches {entry : Entry} {ps : List Piece} {o : Outline}
    (h : Matches [entry.step] ps [o] []) (hps : ps ≠ []) (hp : p.lookahead.Before ps) :
    p.ReadsBack entry o := by
  have hlt : p.position < p.stream.visible.size := by
    cases ps with
    | nil => exact absurd rfl hps
    | cons a ps =>
      refine (kind_ne_eof_iff p).1 ?_
      rw [hp.1.1]
      exact hp.1.2.2.1
  have hp' : p.fresh.lookahead.Before (ps ++ []) := by
    rw [List.append_nil]
    exact hp
  obtain ⟨q, hq, hg⟩ := h p.fresh hp'
  exact readsBack_of_gives hlt hq hg

end Parser

end ApexSyntax
