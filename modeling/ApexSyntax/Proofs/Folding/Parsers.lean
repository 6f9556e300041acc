-- Two parsers, one over a stream and one over the folded stream, do the same
-- step after step. Their trees and what they report are the same up to folding.
import ApexSyntax.Proofs.Folding.Lookaheads

namespace ApexSyntax

open Text

/-! ## Trees -/

mutual

/-- The tree with the texts of its tokens folded. -/
def Tree.folded : Tree → Tree
  | .node r ts => .node r (Tree.foldedAll ts)
  | .token t => .token t.folded
  | .skipped t => .skipped t.folded

def Tree.foldedAll : List Tree → List Tree
  | [] => []
  | t :: ts => t.folded :: Tree.foldedAll ts

end

theorem Tree.foldedAll_eq_map (ts : List Tree) : foldedAll ts = ts.map folded := by
  induction ts with
  | nil => rfl
  | cons t ts ih => rw [foldedAll, ih, List.map_cons]

theorem Tree.isNode_folded (t : Tree) : t.folded.isNode = t.isNode := by
  cases t <;> rfl

def Frame.folded (f : Frame) : Frame := ⟨f.rule, f.children.map Tree.folded⟩

namespace Builder

def folded (b : Builder) : Builder := ⟨b.ground.map Tree.folded, b.frames.map Frame.folded⟩

theorem folded_empty : empty.folded = empty := by simp [empty, folded]

@[simp] theorem mark_folded (b : Builder) : b.folded.mark = b.mark := by
  rcases b with ⟨ground, _ | ⟨f, rest⟩⟩
  · simp [folded, mark, top]
  · simp [folded, mark, top, Frame.folded]

theorem folded_add (b : Builder) (t : Tree) : (b.add t).folded = b.folded.add t.folded := by
  rcases b with ⟨ground, _ | ⟨⟨r, children⟩, rest⟩⟩
  · simp [add, folded]
  · simp [add, folded, Frame.folded]

theorem folded_start (b : Builder) (r : Rule) : (b.start r).folded = b.folded.start r := by
  simp [start, folded, Frame.folded]

theorem folded_wrap (b : Builder) (mark : Nat) (r : Rule) :
    (b.wrap mark r).folded = b.folded.wrap mark r := by
  rcases b with ⟨ground, _ | ⟨⟨s, children⟩, rest⟩⟩
  · simp [wrap, folded, Frame.folded]
  · simp [wrap, folded, Frame.folded]

theorem folded_finish (b : Builder) : b.finish.folded = b.folded.finish := by
  rcases b with ⟨ground, _ | ⟨f, rest⟩⟩
  · rfl
  · have h : Tree.folded (.node f.rule f.children.toList) =
        .node f.folded.rule f.folded.children.toList := by
      simp [Tree.folded, Tree.foldedAll_eq_map, Frame.folded]
    rw [finish, folded_add, h]
    rfl

theorem finishAll_folded (ground : Array Tree) (inner : List Tree) (frames : List Frame) :
    finishAll (ground.map Tree.folded) (inner.map Tree.folded) (frames.map Frame.folded) =
      (finishAll ground inner frames).map Tree.folded := by
  induction frames generalizing inner with
  | nil => simp [finishAll]
  | cons f rest ih =>
    have h : [Tree.node f.folded.rule (f.folded.children.toList ++ inner.map Tree.folded)] =
        [Tree.node f.rule (f.children.toList ++ inner)].map Tree.folded := by
      simp [Tree.folded, Tree.foldedAll_eq_map, Frame.folded]
    rw [List.map_cons, finishAll, finishAll, h, ih]

theorem root_folded (b : Builder) : b.folded.root = b.root.folded := by
  have h : finishAll b.folded.ground [] b.folded.frames =
      (finishAll b.ground [] b.frames).map Tree.folded := finishAll_folded b.ground [] b.frames
  have hn : Tree.isNode ∘ Tree.folded = Tree.isNode := funext Tree.isNode_folded
  rw [root, root, h, List.find?_map, hn]
  cases (finishAll b.ground [] b.frames).find? Tree.isNode with
  | none => rfl
  | some t => rfl

end Builder

/-! ## Messages -/

namespace Parser

/-- A message quotes the token between texts that no folding reaches. -/
theorem foldText_quoting (t : Token) (a b c : String) :
    foldText (a ++ t.folded.quoted ++ b ++ c) = foldText (a ++ t.quoted ++ b ++ c) := by
  rw [foldText_append, foldText_append, foldText_append, t.foldText_quoted, ← foldText_append,
    ← foldText_append, ← foldText_append]

theorem foldText_mismatch (t : Token) (expected : String) :
    foldText (mismatchMessage t.folded expected) = foldText (mismatchMessage t expected) :=
  foldText_quoting t _ _ _

theorem foldText_extraneous (t : Token) (expected : String) :
    foldText (extraneousMessage t.folded expected) = foldText (extraneousMessage t expected) :=
  foldText_quoting t _ _ _

theorem foldText_missing (t : Token) (expected : String) :
    foldText (missingMessage t.folded expected) = foldText (missingMessage t expected) := by
  unfold missingMessage
  rw [foldText_append, t.foldText_quoted, ← foldText_append]

theorem foldText_complaint (t : Token) (c : Complaint) :
    foldText (complaintMessage t.folded c) = foldText (complaintMessage t c) := by
  cases c with
  | noAlternative =>
    unfold complaintMessage noAlternativeMessage
    rw [foldText_append, t.foldText_quoted, ← foldText_append]
  | mismatch expected => exact foldText_mismatch t expected

theorem foldText_absent (t : Token) (e : Expected) :
    foldText (absentMessage t.folded e) = foldText (absentMessage t e) := by
  have hb : e.mayBeLeftOutBefore t.folded = e.mayBeLeftOutBefore t := by
    unfold Expected.mayBeLeftOutBefore
    split
    · simp
    · simp
    · rfl
  unfold absentMessage
  rw [hb, Token.kind_folded]
  split
  · exact foldText_missing t e.display
  · exact foldText_mismatch t e.display

end Parser

/-! ## Steps -/

/-- A parser, and one at the same place of the folded stream. -/
structure ParsersAgree (p q : Parser) : Prop where
  stream : q.stream = p.stream.folded
  position : q.position = p.position
  listeners : q.listeners.map Listener.folded = p.listeners.map Listener.folded
  errorCount : q.errorCount = p.errorCount
  recovering : q.recovering = p.recovering
  tree : q.tree = p.tree.folded

/-- Both are errors, and the same up to folding, or the values of both are related. -/
inductive ResultsAgree {α : Type} (R : α → α → Prop) :
    Except SyntaxError α → Except SyntaxError α → Prop
  | ok {a b : α} : R a b → ResultsAgree R (.ok a) (.ok b)
  | error {e e' : SyntaxError} : e'.folded = e.folded → ResultsAgree R (.error e) (.error e')

/-- Both end in one way, with the same error up to folding. -/
inductive EndingsAgree : Parser.Ending → Parser.Ending → Prop
  | same (ending : Parser.Ending) : EndingsAgree ending ending
  | thrown {e e' : SyntaxError} : e'.folded = e.folded → EndingsAgree (.thrown e) (.thrown e')

/-- A step leaves both at the same place, with the same steps to go on with. -/
def StepsAgree (a b : Parser × Parser.Outcome) : Prop :=
  ParsersAgree a.1 b.1 ∧ ResultsAgree Eq a.2 b.2

namespace ParsersAgree

open ApexSyntax.Parser

variable {p q : Parser}

theorem lookahead_eq (h : ParsersAgree p q) : q.lookahead = p.lookahead.folded := by
  rw [lookahead, lookahead, Lookahead.folded, h.stream, h.position]

theorem current_eq (h : ParsersAgree p q) : q.current = p.current.folded := by
  rw [current, current, h.lookahead_eq]
  exact p.lookahead.nth_folded 0

theorem behind_eq (h : ParsersAgree p q) : q.behind = p.behind := by
  rw [behind, behind, h.current_eq, Token.isEof_folded, h.position]

theorem fuel_eq (h : ParsersAgree p q) : q.fuel = p.fuel := by
  rw [fuel, fuel, h.lookahead_eq, Lookahead.left_folded]

theorem build (h : ParsersAgree p q) (f g : Builder → Builder)
    (hf : ∀ b : Builder, (f b).folded = g b.folded) : ParsersAgree (p.build f) (q.build g) where
  stream := h.stream
  position := h.position
  listeners := h.listeners
  errorCount := h.errorCount
  recovering := h.recovering
  tree := by
    have ht : g q.tree = (f p.tree).folded := by rw [h.tree, hf]
    exact ht

theorem take (h : ParsersAgree p q) : ParsersAgree p.take q.take := by
  have ht : (Tree.token p.current).folded = .token q.current := by
    rw [h.current_eq]
    rfl
  obtain ⟨hstream, _, hlisteners, herrors, _, htree⟩ :=
    h.build (·.add (.token p.current)) (·.add (.token q.current)) fun b => by
      rw [b.folded_add, ht]
  exact ⟨hstream, h.behind_eq, hlisteners, herrors, rfl, htree⟩

theorem skip (h : ParsersAgree p q) : ParsersAgree p.skip q.skip := by
  have ht : (Tree.skipped p.current).folded = .skipped q.current := by
    rw [h.current_eq]
    rfl
  obtain ⟨hstream, _, hlisteners, herrors, hrecovering, htree⟩ :=
    h.build (·.add (.skipped p.current)) (·.add (.skipped q.current)) fun b => by
      rw [b.folded_add, ht]
  exact ⟨hstream, h.behind_eq, hlisteners, herrors, hrecovering, htree⟩

theorem takeMany (h : ParsersAgree p q) (n : Nat) : ParsersAgree (p.takeMany n) (q.takeMany n) := by
  induction n generalizing p q with
  | zero => exact h
  | succ n ih => exact ih h.take

theorem errorHere_folded (h : ParsersAgree p q) {m m' : String} (hm : foldText m' = foldText m) :
    (q.errorHere m').folded = (p.errorHere m).folded := by
  simp only [errorHere, SyntaxError.folded, h.current_eq, Token.line_folded, Token.column_folded,
    hm]

theorem stopsAt_eq (h : ParsersAgree p q) :
    Listener.stopsAt q.listeners = Listener.stopsAt p.listeners := by
  rw [← Listener.stopsAt_folded, h.listeners, Listener.stopsAt_folded]

/-- Both report, or both keep silent. -/
theorem reportThen (h : ParsersAgree p q) {m m' : String} (hm : foldText m' = foldText m)
    (steps : List Step) : StepsAgree (p.reportThen m steps) (q.reportThen m' steps) := by
  have he := h.errorHere_folded hm
  unfold Parser.reportThen report
  rw [h.recovering, h.stopsAt_eq]
  by_cases hr : p.recovering
  · simp only [if_pos hr]
    exact ⟨h, .ok rfl⟩
  · have hls : (Listener.hearAll (q.errorHere m') q.listeners).map Listener.folded =
        (Listener.hearAll (p.errorHere m) p.listeners).map Listener.folded := by
      rw [Listener.folded_hearAll, Listener.folded_hearAll, he, h.listeners]
    have hc : q.errorCount + 1 = p.errorCount + 1 := by rw [h.errorCount]
    simp only [if_neg hr]
    by_cases hs : Listener.stopsAt p.listeners
    · simp only [if_pos hs]
      exact ⟨⟨h.stream, h.position, hls, hc, rfl, h.tree⟩, ResultsAgree.error he⟩
    · simp only [if_neg hs]
      exact ⟨⟨h.stream, h.position, hls, hc, rfl, h.tree⟩, .ok rfl⟩

theorem expect (h : ParsersAgree p q) (e : Expected) (next : List Step) :
    StepsAgree (p.expect e next) (q.expect e next) := by
  have hnth : q.lookahead.nth 1 = (p.lookahead.nth 1).folded := by
    rw [h.lookahead_eq, Lookahead.nth_folded]
  unfold Parser.expect
  simp only [h.current_eq, hnth, Expected.accepts_folded, Token.isEof_folded]
  split
  · exact ⟨h.take, .ok rfl⟩
  · split
    · exact h.reportThen (foldText_extraneous _ _) _
    · exact h.reportThen (foldText_absent _ _) _

/-- What both do in a step is the same up to folding. -/
theorem perform (h : ParsersAgree p q) (step : Step) :
    StepsAgree (p.perform step) (q.perform step) := by
  have hv := h.lookahead_eq
  have heof : q.current.isEof = p.current.isEof := by rw [h.current_eq, Token.isEof_folded]
  have hmark : q.tree.mark = p.tree.mark := by rw [h.tree, Builder.mark_folded]
  cases step with
  | start r => exact ⟨h.build (·.start r) (·.start r) fun b => b.folded_start r, .ok rfl⟩
  | wrap mark r =>
    exact ⟨h.build (·.wrap mark r) (·.wrap mark r) fun b => b.folded_wrap mark r, .ok rfl⟩
  | finish => exact ⟨h.build Builder.finish Builder.finish Builder.folded_finish, .ok rfl⟩
  | take n => exact ⟨h.takeMany n, .ok rfl⟩
  | takeIf m =>
    simp only [Parser.perform, hv, Lookahead.atMark_folded]
    split
    · exact ⟨h.take, .ok rfl⟩
    · exact ⟨h, .ok rfl⟩
  | skip => exact ⟨h.skip, .ok rfl⟩
  | progress since =>
    simp only [Parser.perform, h.position]
    split
    · exact ⟨h.skip, .ok rfl⟩
    · exact ⟨h, .ok rfl⟩
  | expect e => exact h.expect e []
  | expectThen e next => exact h.expect e [next]
  | complain c =>
    refine h.reportThen ?_ []
    rw [h.current_eq, foldText_complaint]
  | endOfText =>
    simp only [Parser.perform, heof]
    split
    · exact ⟨h.take, .ok rfl⟩
    · refine h.reportThen ?_ _
      rw [h.current_eq, foldText_extraneous]
  | skipRest =>
    simp only [Parser.perform, heof]
    split
    · exact ⟨h, .ok rfl⟩
    · exact ⟨h.skip, .ok rfl⟩
  | typ part => exact ⟨h, .ok (by rw [hv, part.expand_folded])⟩
  | expr part =>
    exact ⟨h, .ok (by rw [hv, hmark, part.expand_folded])⟩
  | soql part => exact ⟨h, .ok (by rw [hv, part.expand_folded])⟩
  | stmt part => exact ⟨h, .ok (by rw [hv, part.expand_folded])⟩
  | decl part => exact ⟨h, .ok (by rw [hv, part.expand_folded])⟩

/-! ## Runs -/

/-- What a step preserves, a run preserves: both go on with the same steps, and
come to the same ending. -/
theorem runWithin (h : ParsersAgree p q) (fuel : Nat) (ss : List Step) :
    ParsersAgree (Parser.runWithin fuel ss p).1 (Parser.runWithin fuel ss q).1 ∧
      EndingsAgree (Parser.runWithin fuel ss p).2 (Parser.runWithin fuel ss q).2 := by
  induction fuel generalizing ss p q with
  | zero => cases ss <;> exact ⟨h, .same _⟩
  | succ fuel ih =>
    cases ss with
    | nil => exact ⟨h, .same _⟩
    | cons step rest =>
      obtain ⟨ha, ho⟩ := h.perform step
      unfold Parser.runWithin
      revert ha ho
      rcases p.perform step with ⟨p', out⟩
      rcases q.perform step with ⟨q', out'⟩
      intro ha ho
      cases ho with
      | ok heq =>
        subst heq
        exact ih ha _
      | error he => exact ⟨ha, .thrown he⟩

theorem run (h : ParsersAgree p q) (entry : Entry) :
    ParsersAgree (p.run entry).1 (q.run entry).1 ∧
      EndingsAgree (p.run entry).2 (q.run entry).2 := by
  have h0 : ParsersAgree { p with tree := Builder.empty, recovering := false }
      { q with tree := Builder.empty, recovering := false } :=
    ⟨h.stream, h.position, h.listeners, h.errorCount, rfl, Builder.folded_empty.symm⟩
  unfold Parser.run
  rw [h.fuel_eq]
  exact h0.runWithin _ _

end ParsersAgree

/-- The second tree has the tokens of the first one folded. -/
def TreesAgree (t u : Tree) : Prop := u = t.folded

theorem ParsersAgree.parse {p q : Parser} (h : ParsersAgree p q) (entry : Entry) :
    ParsersAgree (p.parse entry).1 (q.parse entry).1 ∧
      ResultsAgree TreesAgree (p.parse entry).2 (q.parse entry).2 := by
  obtain ⟨ha, he⟩ := h.run entry
  unfold Parser.parse
  revert ha he
  rcases p.run entry with ⟨p', ending⟩
  rcases q.run entry with ⟨q', ending'⟩
  intro ha he
  have hroot : q'.tree.root = p'.tree.root.folded := by
    rw [ha.tree, Builder.root_folded]
  have hdone : ParsersAgree { p' with tree := Builder.empty } { q' with tree := Builder.empty } :=
    ⟨ha.stream, ha.position, ha.listeners, ha.errorCount, ha.recovering,
      Builder.folded_empty.symm⟩
  cases he with
  | same =>
    cases ending with
    | finished => exact ⟨hdone, .ok hroot⟩
    | thrown e => exact ⟨ha, .error rfl⟩
    | exhausted => exact ⟨hdone, .ok hroot⟩
  | thrown he => exact ⟨ha, .error he⟩

end ApexSyntax
