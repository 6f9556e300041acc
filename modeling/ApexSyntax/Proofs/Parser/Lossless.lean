-- Parse trees are lossless: every call ends with one node, whose leaves are the
-- visible tokens that the call read. So the leaves of one call after the other
-- are the tokens from the start on, and a unit has all tokens of its text.
import ApexSyntax.Proofs.Parser.Effort
import ApexSyntax.Proofs.Parser.Leaves
import ApexSyntax.Proofs.Parser.Shape

namespace ApexSyntax

/-! ## Reading up to the end -/

/-- The step ends only at the end of the text. -/
def Step.reachesEnd : Step → Bool
  | endOfText | skipRest | decl .anonymousMembers => true
  | decl .compilationUnit | decl .triggerUnit | decl .anonymousUnit => true
  | _ => false

/-- An entry for a whole text. -/
def Entry.isUnit : Entry → Bool
  | compilationUnit | triggerUnit | anonymousUnit => true
  | _ => false

theorem reachesEnd_step {entry : Entry} (h : entry.isUnit = true) :
    entry.step.reachesEnd = true := by
  cases entry <;> first | rfl | cases h

namespace Parser

/-- All visible tokens are read. -/
def AtEnd (p : Parser) : Prop := p.stream.visible.size ≤ p.position

section End

variable {p p' q : Parser} {s : Step} {ss more : List Step}

theorem AtEnd.moves (h : AtEnd p) (hm : Moves p q) : AtEnd q := by
  have := hm.position_le
  unfold AtEnd at *
  rw [hm.stream]
  omega

theorem atEnd_of_isEof (h : p.current.isEof = true) : AtEnd p := (isEof_current_iff p).1 h

/-- Such a step is at the end, or goes on with such a step. -/
theorem reachesEnd_perform (hs : s.reachesEnd = true) (h : p.perform s = (p', .ok more)) :
    AtEnd p' ∨ more.any Step.reachesEnd = true := by
  cases s with
  | endOfText =>
    simp only [Parser.perform] at h
    split at h
    · cases h
      exact .inl ((atEnd_of_isEof ‹_›).moves (moves_take p))
    · obtain ⟨_, rfl⟩ := reportThen_ok h
      exact .inr rfl
  | skipRest =>
    simp only [Parser.perform] at h
    split at h
    · cases h
      exact .inl (atEnd_of_isEof ‹_›)
    · cases h
      exact .inr rfl
  | decl part =>
    cases h
    cases part with
    | compilationUnit | triggerUnit | anonymousUnit => exact .inr rfl
    | anonymousMembers =>
      simp only [DeclPart.expand]
      split
      · rename_i hk
        rw [beq_iff_eq] at hk
        exact .inl (atEnd_of_isEof (by rw [Token.isEof, ← kind_lookahead, hk]; rfl))
      · split
        · exact .inr rfl
        · exact .inr rfl
    | _ => cases hs
  | _ => cases hs

/-- Steps with such a step among them end at the end. -/
theorem atEnd_of_any {allowed : Parser → Step → Prop}
    (h : Chain (fun s p q => Leads allowed [s] p q ∧ (s.reachesEnd = true → AtEnd q)) ss p q)
    (hs : ss.any Step.reachesEnd = true) : AtEnd q := by
  induction ss generalizing p with
  | nil => cases hs
  | cons s ss ih =>
    obtain ⟨p', ⟨_, hend⟩, h⟩ := h
    rw [List.any_cons, Bool.or_eq_true] at hs
    rcases hs with hs | hs
    · refine (hend hs).moves ?_
      exact h.fold Moves.refl (fun _ _ _ => Moves.trans) fun _ _ _ hc => hc.1.moves
    · exact ih h hs

theorem Leads.atEnd {allowed : Parser → Step → Prop} (h : Leads allowed ss p q)
    (hs : ss.any Step.reachesEnd = true) : AtEnd q := by
  refine atEnd_of_any (h.chain ?_) hs
  intro s p p' more q hp hm hc hs
  rcases reachesEnd_perform hs hp with he | he
  · exact he.moves hm.moves
  · exact atEnd_of_any hc he

end End

/-! ## Calls -/

/-- Calls one entry after the other, up to the first error that is thrown. -/
def parseAll (p : Parser) : List Entry → Parser × Except SyntaxError (List Tree)
  | [] => (p, .ok [])
  | entry :: rest =>
    match p.parse entry with
    | (q, .error e) => (q, .error e)
    | (q, .ok tree) =>
      match q.parseAll rest with
      | (r, .error e) => (r, .error e)
      | (r, .ok trees) => (r, .ok (tree :: trees))

/-- A call that ends with exactly one node, the tree that it returns. The leaves
of the tree are the tokens that the call read, each once and in order. -/
structure LosslessCall (p : Parser) (entry : Entry) (q : Parser) (tree : Tree) : Prop where
  returns : p.parse entry = (q, .ok tree)
  finished : (p.run entry).2 = .finished
  oneRoot : (p.run entry).1.tree = ⟨#[tree], []⟩
  isNode : tree.isNode = true
  position_le : p.position ≤ q.position
  leaves : tokensOf tree.leaves = p.stream.between p.position q.position

section Calls

variable {p : Parser}

/-- Behind a call stands the parser of its run, with the tree handed out. -/
theorem LosslessCall.run_eq {q : Parser} {entry : Entry} {tree : Tree}
    (h : LosslessCall p entry q tree) :
    ∃ r, p.run entry = (r, .finished) ∧ r.tree = ⟨#[tree], []⟩ ∧
      q = { r with tree := Builder.empty } := by
  have hr : p.run entry = ((p.run entry).1, .finished) := Prod.ext rfl h.finished
  have hq := h.returns
  rw [parse, hr] at hq
  cases hq
  exact ⟨_, hr, h.oneRoot, rfl⟩

/-- A call that comes to its end returns a tree, and loses nothing. -/
theorem exists_call_of_finished {entry : Entry} {q : Parser}
    (hq : p.run entry = (q, .finished)) :
    ∃ tree, LosslessCall p entry { q with tree := Builder.empty } tree ∧
      Moves p { q with tree := Builder.empty } ∧
      (entry.isUnit = true → AtEnd { q with tree := Builder.empty }) := by
  have hrun : Runs [entry.step] { p with tree := Builder.empty, recovering := false } q :=
    leads_of_runWithin hq
  obtain ⟨r, ts, hroot⟩ := node_of_entry hrun
  have htree : q.tree = ⟨#[.node r ts], []⟩ := hroot
  obtain ⟨hm, hleaves⟩ := hrun.reads
  have hparse : p.parse entry = ({ q with tree := Builder.empty }, .ok (.node r ts)) := by
    simp only [parse, hq]
    rw [htree]
    rfl
  rw [htree, Builder.leaves_single] at hleaves
  refine ⟨.node r ts, ?_, ?_, ?_⟩
  · exact {
      returns := hparse
      finished := by rw [hq]
      oneRoot := by rw [hq]; exact htree
      isNode := rfl
      position_le := hm.position_le
      leaves := hleaves }
  · exact ⟨hm.stream, hm.position_le, hm.within, hm.errorCount_le, hm.stops⟩
  · intro hu
    exact hrun.atEnd (by simpa using reachesEnd_step hu)

/-- Without a throwing listener every call returns a tree, and loses nothing. -/
theorem exists_call (hl : Listener.stopsAt p.listeners = false) (entry : Entry) :
    ∃ q tree, LosslessCall p entry q tree ∧ Moves p q ∧ (entry.isUnit = true → AtEnd q) := by
  obtain ⟨q, hq⟩ := run_finished hl entry
  exact ⟨_, exists_call_of_finished hq⟩

/-- The leaves of one call after the other are the tokens that they read. -/
theorem parseAll_tiles (hl : Listener.stopsAt p.listeners = false) (calls : List Entry) :
    ∃ q trees, p.parseAll calls = (q, .ok trees) ∧ Moves p q ∧
      trees.flatMap (fun t => tokensOf t.leaves) = p.stream.between p.position q.position := by
  induction calls generalizing p with
  | nil => exact ⟨p, [], rfl, .refl p, by simp⟩
  | cons entry calls ih =>
    obtain ⟨q, tree, hc, hq, _⟩ := exists_call hl entry
    obtain ⟨r, trees, hr, hqr, hleaves⟩ := ih (by rw [hq.stops, hl])
    refine ⟨r, tree :: trees, ?_, hq.trans hqr, ?_⟩
    · simp only [parseAll, hc.returns, hr]
    · rw [List.flatMap_cons, hc.leaves, hleaves, hq.stream]
      exact p.stream.between_append hq.position_le hqr.position_le

end Calls

/-! ## Whole texts -/

/-- A call that comes to the end of the text reads all visible tokens that are left. -/
theorem LosslessCall.tokens_of_atEnd {p q : Parser} {entry : Entry} {tree : Tree}
    (h : LosslessCall p entry q tree) (hm : Moves p q) (hend : AtEnd q) :
    tokensOf tree.leaves = p.stream.visible.toList.drop p.position := by
  unfold AtEnd at hend
  rw [hm.stream] at hend
  rw [h.leaves, p.stream.between_of_le _ hend]

/-- From the start up to the end, all visible tokens are read. -/
theorem LosslessCall.leaves_of_atEnd {p q : Parser} {entry : Entry} {tree : Tree}
    (h : LosslessCall p entry q tree) (hp : p.position = 0) (hm : Moves p q) (hend : AtEnd q) :
    tokensOf tree.leaves = p.stream.visible.toList := by
  rw [h.tokens_of_atEnd hm hend, hp, List.drop_zero]

/-- The text of leaves is what their tokens have, without the end of the text. -/
theorem textOf_eq (leaves : List Leaf) :
    Tree.textOf leaves = String.join ((tokensOf leaves).map Token.text) := by
  unfold Tree.textOf String.join
  generalize "" = acc
  induction leaves generalizing acc with
  | nil => rfl
  | cons l leaves ih =>
    rw [List.foldl_cons, ih]
    by_cases he : l.token.isEof = true
    · simp [tokensOf, he]
    · simp [tokensOf, he]

/-- Parse trees are lossless. Whatever calls are made one after the other, the
leaves of their trees are the tokens that they read; so are those of one more
call, which ends with exactly one node; and a unit from the start of a text has
all visible tokens as its leaves. -/
theorem parse_lossless (p : Parser) (hl : Listener.stopsAt p.listeners = false)
    (before : List Entry) (entry : Entry) :
    (∃ q trees, p.parseAll before = (q, .ok trees) ∧ q.stream = p.stream ∧
      trees.flatMap (fun t => tokensOf t.leaves) = p.stream.between p.position q.position ∧
      ∃ r tree, LosslessCall q entry r tree) ∧
    (p.position = 0 → entry.isUnit = true → ∃ q tree, LosslessCall p entry q tree ∧
      tokensOf tree.leaves = p.stream.visible.toList ∧
      tree.text = String.join (p.stream.visible.toList.map Token.text)) := by
  constructor
  · obtain ⟨q, trees, hq, hm, htiles⟩ := parseAll_tiles hl before
    obtain ⟨r, tree, hc, _⟩ := exists_call (by rw [hm.stops, hl]) entry
    exact ⟨q, trees, hq, hm.stream, htiles, r, tree, hc⟩
  · intro hp hu
    obtain ⟨q, tree, hc, hq, hend⟩ := exists_call hl entry
    have hleaves := hc.leaves_of_atEnd hp hq (hend hu)
    refine ⟨q, tree, hc, hleaves, ?_⟩
    rw [Tree.text, textOf_eq, hleaves]

/-- A parser at the start of a lone semicolon, with a listener that collects. -/
def atSemicolon : Parser :=
  let semicolon : Token :=
    { kind := .mark .semi, text := ";", word := "", line := 1, column := 1, start := 0,
      length := 1, index := 0 }
  (ofStream (.ofTokens #[semicolon] (.endOfText 1 2 1 1) (by simp))).addListener
    (.collector "A.cls")

theorem parse_lossless_atSemicolon : Listener.stopsAt atSemicolon.listeners = false ∧
    ∃ q tree, LosslessCall atSemicolon .anonymousUnit q tree ∧ tree.text = ";" := by
  have hl : Listener.stopsAt atSemicolon.listeners = false := rfl
  obtain ⟨_, hunit⟩ := parse_lossless atSemicolon hl [.expression] .anonymousUnit
  obtain ⟨q, tree, hc, _, htext⟩ := hunit rfl rfl
  exact ⟨hl, q, tree, hc, htext.trans (by rfl)⟩

end Parser

end ApexSyntax
