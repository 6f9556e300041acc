-- Two parsers over the same tokens, laid out in two ways, do the same step after step.
-- Their trees differ in the places of tokens only, and they report the same messages,
-- each at the same visible token.
import ApexSyntax.Proofs.Layout.Alike
import ApexSyntax.Proofs.Parser.History
import ApexSyntax.Proofs.Parser.Trees

namespace ApexSyntax

/-! ## Tokens without their places -/

namespace Token

/-- The token without its place. -/
def placeless (t : Token) : Token :=
  { t with line := 0, column := 0, start := 0, length := 0, index := 0 }

@[simp] theorem kind_placeless (t : Token) : t.placeless.kind = t.kind := rfl

@[simp] theorem text_placeless (t : Token) : t.placeless.text = t.text := rfl

@[simp] theorem word_placeless (t : Token) : t.placeless.word = t.word := rfl

theorem placeless_eq_iff {t u : Token} :
    u.placeless = t.placeless ↔ u.kind = t.kind ∧ u.text = t.text ∧ u.word = t.word := by
  simp [placeless]

end Token

namespace TokenStream

/-- The same visible tokens up to their places. Whether they touch may change too, but
not between two `<` or two `>`. -/
structure SameButLayout (s t : TokenStream) : Prop where
  visible : t.visible.map Token.placeless = s.visible.map Token.placeless
  angles (i : Nat) (m : Mark) : m = .lt ∨ m = .gt → (s.nth i).kind = .mark m →
    (s.nth (i + 1)).kind = .mark m →
    ((t.nth (i + 1)).index = (t.nth i).index + 1 ↔ (s.nth (i + 1)).index = (s.nth i).index + 1)

variable {s t : TokenStream}

theorem placeless_eof (s : TokenStream) : s.eof.placeless = .endOfText 0 0 0 0 := by
  rw [s.eof_eq]
  rfl

theorem placeless_nth (s : TokenStream) (i : Nat) :
    (s.nth i).placeless = (s.visible.map Token.placeless).getD i (.endOfText 0 0 0 0) := by
  by_cases h : i < s.visible.size
  · simp [nth, Array.getD, h]
  · rw [nth_of_le (Nat.not_lt.1 h), placeless_eof]
    simp [Array.getD, h]

/-- Behind the visible tokens there are no angles. -/
theorem sameButLayout_iff : s.SameButLayout t ↔
    t.visible.map Token.placeless = s.visible.map Token.placeless ∧
      ∀ i < s.visible.size, ∀ m ∈ [Mark.lt, .gt], (s.nth i).kind = .mark m →
        (s.nth (i + 1)).kind = .mark m →
        ((t.nth (i + 1)).index = (t.nth i).index + 1 ↔
          (s.nth (i + 1)).index = (s.nth i).index + 1) := by
  constructor
  · intro h
    exact ⟨h.visible, fun i _ m hm => h.angles i m (by simpa using hm)⟩
  · rintro ⟨hv, ha⟩
    refine ⟨hv, fun i m hm h0 h1 => ha i ?_ m (by simpa using hm) h0 h1⟩
    apply Nat.lt_of_not_le
    intro hle
    rw [(s.kind_nth_eq_eof_iff i).2 hle] at h0
    cases h0

instance (s t : TokenStream) : Decidable (s.SameButLayout t) :=
  decidable_of_iff _ sameButLayout_iff.symm

theorem SameButLayout.nth (h : s.SameButLayout t) (i : Nat) :
    (t.nth i).placeless = (s.nth i).placeless := by
  rw [placeless_nth, placeless_nth, h.visible]

end TokenStream

namespace Lookahead

variable {s t : TokenStream}

/-- The end of the text is a token that no decision looks past. -/
theorem isBoundary_left (v : Lookahead) : (v.nth v.left).isBoundary = true := by
  rw [nth_of_left_le (Nat.le_refl _), Token.isBoundary, TokenStream.word_eof,
    TokenStream.kind_eof]
  rfl

theorem alike_of_sameButLayout (h : s.SameButLayout t) (i : Nat) :
    Alike ⟨s, i⟩ ⟨t, i⟩ (Lookahead.left ⟨s, i⟩) where
  kind n _ := (Token.placeless_eq_iff.1 (h.nth (i + n))).1
  word n _ := (Token.placeless_eq_iff.1 (h.nth (i + n))).2.2
  boundary := isBoundary_left _

theorem anglesAlike_of_sameButLayout (h : s.SameButLayout t) (i : Nat) :
    AnglesAlike ⟨s, i⟩ ⟨t, i⟩ := by
  intro n m hm h0 h1
  have hi := h.angles (i + n) m hm h0 h1
  rw [Bool.eq_iff_iff, touches, touches, beq_iff_eq, beq_iff_eq]
  exact hi

theorem left_eq_of_sameButLayout (h : s.SameButLayout t) (i : Nat) :
    Lookahead.left ⟨t, i⟩ = Lookahead.left ⟨s, i⟩ := by
  have hs := congrArg Array.size h.visible
  rw [Array.size_map, Array.size_map] at hs
  rw [left, left, hs]

end Lookahead

/-! ## Reports -/

/-- What is reported, and the visible token that it is about. -/
structure Report where
  position : Nat
  message : String

/-- The error that listeners hear: the place of the token, and the message. -/
def Report.error (s : TokenStream) (r : Report) : SyntaxError :=
  { line := (s.nth r.position).line, column := (s.nth r.position).column, message := r.message }

/-- Between two parsers over a stream some reports were made. -/
structure Tells (s : TokenStream) (rs : List Report) (p q : Parser) : Prop where
  listeners : q.listeners = Listener.hearEach (rs.map (Report.error s)) p.listeners
  errorCount : q.errorCount = p.errorCount + rs.length

namespace Tells

variable {s : TokenStream} {rs rs' : List Report} {p q r : Parser}

theorem refl (s : TokenStream) (p : Parser) : Tells s [] p p := ⟨rfl, rfl⟩

/-- What changes neither listeners nor the count of errors reports nothing. -/
theorem silently (hl : q.listeners = p.listeners) (he : q.errorCount = p.errorCount) :
    Tells s [] p q := ⟨hl, he⟩

theorem trans (h : Tells s rs p q) (h' : Tells s rs' q r) : Tells s (rs ++ rs') p r where
  listeners := by
    rw [List.map_append, Listener.hearEach_append, ← h.listeners, h'.listeners]
  errorCount := by rw [h'.errorCount, h.errorCount, List.length_append, Nat.add_assoc]

end Tells

/-- Both are errors, the last of some reports as each stream has its token, or the values
of both are related. -/
inductive ResultsAlike {α : Type} (s t : TokenStream) (rs : List Report) (R : α → α → Prop) :
    Except SyntaxError α → Except SyntaxError α → Prop
  | ok {a b : α} : R a b → ResultsAlike s t rs R (.ok a) (.ok b)
  | error {r : Report} : rs.getLast? = some r →
      ResultsAlike s t rs R (.error (r.error s)) (.error (r.error t))

/-- Both end in one way, with the last report if it is thrown. -/
inductive EndingsAlike (s t : TokenStream) (rs : List Report) :
    Parser.Ending → Parser.Ending → Prop
  | finished : EndingsAlike s t rs .finished .finished
  | exhausted : EndingsAlike s t rs .exhausted .exhausted
  | thrown {r : Report} : rs.getLast? = some r →
      EndingsAlike s t rs (.thrown (r.error s)) (.thrown (r.error t))

theorem EndingsAlike.append {s t : TokenStream} {rs' : List Report} {e e' : Parser.Ending}
    (h : EndingsAlike s t rs' e e') (rs : List Report) : EndingsAlike s t (rs ++ rs') e e' := by
  cases h with
  | finished => exact .finished
  | exhausted => exact .exhausted
  | thrown h => exact .thrown (by rw [List.getLast?_append, h, Option.some_or])

/-! ## Steps -/

/-- Parsers at the same place of two streams. Both stop at an error, or both go on. -/
structure PlacesAlike (s t : TokenStream) (p q : Parser) : Prop where
  first : p.stream = s
  second : q.stream = t
  position : q.position = p.position
  stops : Listener.stopsAt q.listeners = Listener.stopsAt p.listeners

/-- Parsers at the same place, with trees that differ in the places of tokens only. -/
structure ParsersAlike (s t : TokenStream) (p q : Parser) : Prop extends PlacesAlike s t p q where
  recovering : q.recovering = p.recovering
  tree : q.tree.map Token.placeless = p.tree.map Token.placeless

/-- What two parsers do leaves them at the same place, with the same reports and the same
steps to go on with. -/
def StepsAlike (s t : TokenStream) (p q : Parser) (a b : Parser × Parser.Outcome) : Prop :=
  ∃ rs, ParsersAlike s t a.1 b.1 ∧ Tells s rs p a.1 ∧ Tells t rs q b.1 ∧
    ResultsAlike s t rs Eq a.2 b.2

namespace ParsersAlike

open ApexSyntax.Parser

variable {s t : TokenStream} {p q p' q' : Parser}

theorem lookahead_eq (h : ParsersAlike s t p q) :
    p.lookahead = ⟨s, p.position⟩ ∧ q.lookahead = ⟨t, p.position⟩ := by
  rw [lookahead, lookahead, h.first, h.second, h.position]
  exact ⟨rfl, rfl⟩

theorem current_eq (hs : s.SameButLayout t) (h : ParsersAlike s t p q) :
    q.current.placeless = p.current.placeless := by
  rw [Parser.current_eq, Parser.current_eq, h.first, h.second, h.position]
  exact hs.nth _

/-- What does not depend on places is the same of both current tokens. -/
theorem current_congr (hs : s.SameButLayout t) (h : ParsersAlike s t p q) {α : Type}
    (f : Token → α) (hf : ∀ u : Token, f u.placeless = f u) : f q.current = f p.current := by
  rw [← hf, h.current_eq hs, hf]

theorem isEof_eq (hs : s.SameButLayout t) (h : ParsersAlike s t p q) :
    q.current.isEof = p.current.isEof := h.current_congr hs Token.isEof fun _ => rfl

theorem behind_eq (hs : s.SameButLayout t) (h : ParsersAlike s t p q) : q.behind = p.behind := by
  rw [behind, behind, h.isEof_eq hs, h.position]

theorem build (h : ParsersAlike s t p q) (f : Builder → Builder)
    (hf : ∀ b : Builder, (f b).map Token.placeless = f (b.map Token.placeless)) :
    ParsersAlike s t (p.build f) (q.build f) where
  first := h.first
  second := h.second
  position := h.position
  stops := h.stops
  recovering := h.recovering
  tree := by rw [tree_build, tree_build, hf, hf, h.tree]

/-- Adding the current token, matched or skipped. -/
theorem add_current (hs : s.SameButLayout t) (h : ParsersAlike s t p q) (leaf : Token → Tree)
    (hl : ∀ u : Token, (leaf u).map Token.placeless = leaf u.placeless) :
    (q.tree.add (leaf q.current)).map Token.placeless =
      (p.tree.add (leaf p.current)).map Token.placeless := by
  rw [Builder.map_add, Builder.map_add, hl, hl, h.tree, h.current_eq hs]

theorem take (hs : s.SameButLayout t) (h : ParsersAlike s t p q) :
    ParsersAlike s t p.take q.take where
  first := h.first
  second := h.second
  position := h.behind_eq hs
  stops := h.stops
  recovering := rfl
  tree := h.add_current hs .token (Tree.map_token _)

theorem skip (hs : s.SameButLayout t) (h : ParsersAlike s t p q) :
    ParsersAlike s t p.skip q.skip where
  first := h.first
  second := h.second
  position := h.behind_eq hs
  stops := h.stops
  recovering := h.recovering
  tree := h.add_current hs .skipped (Tree.map_skipped _)

theorem takeMany (hs : s.SameButLayout t) (h : ParsersAlike s t p q) (n : Nat) :
    ParsersAlike s t (p.takeMany n) (q.takeMany n) := by
  induction n generalizing p q with
  | zero => exact h
  | succ n ih => exact ih (h.take hs)

/-- What reports nothing leads to the same steps. -/
theorem silently (h : ParsersAlike s t p' q') (steps : List Step)
    (hl : p'.listeners = p.listeners) (he : p'.errorCount = p.errorCount)
    (hl' : q'.listeners = q.listeners) (he' : q'.errorCount = q.errorCount) :
    StepsAlike s t p q (p', .ok steps) (q', .ok steps) :=
  ⟨[], h, .silently hl he, .silently hl' he', .ok rfl⟩

theorem reportThen (h : ParsersAlike s t p q) (m : String) (steps : List Step) :
    StepsAlike s t p q (p.reportThen m steps) (q.reportThen m steps) := by
  have he : p.errorHere m = Report.error s ⟨p.position, m⟩ := by
    rw [errorHere, Parser.current_eq, h.first]
    rfl
  have he' : q.errorHere m = Report.error t ⟨p.position, m⟩ := by
    rw [errorHere, Parser.current_eq, h.second, h.position]
    rfl
  unfold Parser.reportThen report
  rw [h.recovering, h.stops]
  by_cases hr : p.recovering
  · simp only [if_pos hr]
    exact h.silently steps rfl rfl rfl rfl
  · simp only [if_neg hr, he, he']
    have hafter : ParsersAlike s t
        { p with
          recovering := true
          errorCount := p.errorCount + 1
          listeners := Listener.hearAll (Report.error s ⟨p.position, m⟩) p.listeners }
        { q with
          recovering := true
          errorCount := q.errorCount + 1
          listeners := Listener.hearAll (Report.error t ⟨p.position, m⟩) q.listeners } :=
      { h with
        stops := by rw [Listener.stopsAt_hearAll, Listener.stopsAt_hearAll, h.stops]
        recovering := rfl }
    by_cases hstop : Listener.stopsAt p.listeners
    · simp only [if_pos hstop]
      exact ⟨[⟨p.position, m⟩], hafter, ⟨rfl, rfl⟩, ⟨rfl, rfl⟩, .error rfl⟩
    · simp only [if_neg hstop]
      exact ⟨[⟨p.position, m⟩], hafter, ⟨rfl, rfl⟩, ⟨rfl, rfl⟩, .ok rfl⟩

theorem expect (hs : s.SameButLayout t) (h : ParsersAlike s t p q) (e : Expected)
    (next : List Step) : StepsAlike s t p q (p.expect e next) (q.expect e next) := by
  have haccepts : ∀ u : Token, e.accepts u.placeless = e.accepts u := by
    intro u
    cases e <;> rfl
  have hnext : e.accepts (q.lookahead.nth 1) = e.accepts (p.lookahead.nth 1) := by
    rw [h.lookahead_eq.1, h.lookahead_eq.2, Lookahead.nth, Lookahead.nth, ← haccepts,
      hs.nth, haccepts]
  have hextra : extraneousMessage q.current e.display = extraneousMessage p.current e.display :=
    h.current_congr hs (extraneousMessage · e.display) fun _ => rfl
  have habsent : absentMessage q.current e = absentMessage p.current e := by
    refine h.current_congr hs (absentMessage · e) fun u => ?_
    have hleft : e.mayBeLeftOutBefore u.placeless = e.mayBeLeftOutBefore u := by
      unfold Expected.mayBeLeftOutBefore
      split <;> rfl
    rw [absentMessage, absentMessage, hleft]
    rfl
  unfold Parser.expect
  simp only [h.current_congr hs e.accepts haccepts, hnext, h.isEof_eq hs, hextra, habsent]
  split
  · exact (h.take hs).silently _ rfl rfl rfl rfl
  · split
    · exact h.reportThen _ _
    · exact h.reportThen _ _

/-- A part consists of the same steps. -/
theorem part (h : ParsersAlike s t p q) {ss ts : List Step} (he : ts = ss) :
    StepsAlike s t p q (p, .ok ss) (q, .ok ts) := by
  rw [he]
  exact h.silently ss rfl rfl rfl rfl

/-- Both do the same in a step. -/
theorem perform (hs : s.SameButLayout t) (h : ParsersAlike s t p q) (step : Step) :
    StepsAlike s t p q (p.perform step) (q.perform step) := by
  obtain ⟨hp, hq⟩ := h.lookahead_eq
  have hv : p.lookahead.Alike q.lookahead p.lookahead.left := by
    rw [hp, hq]
    exact Lookahead.alike_of_sameButLayout hs _
  have hangles : p.lookahead.AnglesAlike q.lookahead := by
    rw [hp, hq]
    exact Lookahead.anglesAlike_of_sameButLayout hs _
  have hpos : q.lookahead.position = p.lookahead.position + 0 := h.position
  cases step with
  | start r => exact (h.build (·.start r) fun b => b.map_start _ r).silently _ rfl rfl rfl rfl
  | wrap mark r =>
    exact (h.build (·.wrap mark r) fun b => b.map_wrap _ mark r).silently _ rfl rfl rfl rfl
  | finish => exact (h.build _ fun b => b.map_finish _).silently _ rfl rfl rfl rfl
  | take n =>
    exact (h.takeMany hs n).silently _ (listeners_takeMany p n) (errorCount_takeMany p n)
      (listeners_takeMany q n) (errorCount_takeMany q n)
  | takeIf m =>
    have hm : q.lookahead.atMark m = p.lookahead.atMark m := by
      rw [Lookahead.atMark, Lookahead.atMark, hv.kind 0 (Nat.zero_le _)]
    rw [Parser.perform, Parser.perform, hm]
    by_cases ha : p.lookahead.atMark m = true
    · rw [if_pos ha, if_pos ha]
      exact (h.take hs).silently _ rfl rfl rfl rfl
    · rw [if_neg ha, if_neg ha]
      exact h.part rfl
  | skip => exact (h.skip hs).silently _ rfl rfl rfl rfl
  | progress since =>
    simp only [Parser.perform, h.position]
    split
    · exact (h.skip hs).silently _ rfl rfl rfl rfl
    · exact h.part rfl
  | expect e => exact h.expect hs e []
  | expectThen e next => exact h.expect hs e [next]
  | complain c =>
    have hc : complaintMessage q.current c = complaintMessage p.current c :=
      h.current_congr hs (complaintMessage · c) fun _ => by cases c <;> rfl
    simp only [Parser.perform, hc]
    exact h.reportThen _ _
  | endOfText =>
    have hc : extraneousMessage q.current Kind.eof.display =
        extraneousMessage p.current Kind.eof.display :=
      h.current_congr hs (extraneousMessage · Kind.eof.display) fun _ => rfl
    simp only [Parser.perform, h.isEof_eq hs, hc]
    split
    · exact (h.take hs).silently _ rfl rfl rfl rfl
    · exact h.reportThen _ _
  | skipRest =>
    simp only [Parser.perform, h.isEof_eq hs]
    split
    · exact h.part rfl
    · exact (h.skip hs).silently _ rfl rfl rfl rfl
  | typ part => exact h.part (part.expand_alike hv)
  | expr part =>
    have hmark : q.tree.mark = p.tree.mark := by
      rw [← Builder.mark_map Token.placeless, h.tree, Builder.mark_map]
    refine h.part ?_
    rw [hmark]
    exact part.expand_alike hv _ fun level _ _ => hv.operatorAhead hangles level
  | soql part => exact h.part (part.expand_alike hv)
  | stmt part => exact h.part ((part.expand_alike hv hpos).trans (Step.map_shifted_zero _))
  | decl part => exact h.part ((part.expand_alike hv hpos).trans (Step.map_shifted_zero _))

/-! ## Runs -/

/-- What a step preserves, a run preserves: both go on with the same steps, and what
they report adds up. -/
theorem runWithin (hs : s.SameButLayout t) (h : ParsersAlike s t p q) (fuel : Nat)
    (ss : List Step) : ∃ rs,
      ParsersAlike s t (Parser.runWithin fuel ss p).1 (Parser.runWithin fuel ss q).1 ∧
      Tells s rs p (Parser.runWithin fuel ss p).1 ∧ Tells t rs q (Parser.runWithin fuel ss q).1 ∧
      EndingsAlike s t rs (Parser.runWithin fuel ss p).2 (Parser.runWithin fuel ss q).2 := by
  induction fuel generalizing ss p q with
  | zero => cases ss <;> exact ⟨[], h, .refl s p, .refl t q, by constructor⟩
  | succ fuel ih =>
    cases ss with
    | nil => exact ⟨[], h, .refl s p, .refl t q, .finished⟩
    | cons step rest =>
      obtain ⟨rs, ha, hp, hq, ho⟩ := h.perform hs step
      unfold Parser.runWithin
      revert ha hp hq ho
      rcases p.perform step with ⟨p', out⟩
      rcases q.perform step with ⟨q', out'⟩
      intro ha hp hq ho
      cases ho with
      | @ok more more' heq =>
        subst heq
        obtain ⟨rs', ha', hp', hq', he⟩ := ih ha (more ++ rest)
        exact ⟨rs ++ rs', ha', hp.trans hp', hq.trans hq', he.append rs⟩
      | error hr => exact ⟨rs, ha, hp, hq, .thrown hr⟩

end ParsersAlike

/-- The trees differ in the places of their tokens only. -/
def TreesAlike (t u : Tree) : Prop := u.map Token.placeless = t.map Token.placeless

namespace PlacesAlike

open ApexSyntax.Parser

variable {s t : TokenStream} {p q : Parser}

/-- A call forgets what was built before, and whether the parser recovered. -/
theorem run (hs : s.SameButLayout t) (h : PlacesAlike s t p q) (entry : Entry) : ∃ rs,
    ParsersAlike s t (p.run entry).1 (q.run entry).1 ∧ Tells s rs p (p.run entry).1 ∧
      Tells t rs q (q.run entry).1 ∧ EndingsAlike s t rs (p.run entry).2 (q.run entry).2 := by
  have hfresh : ParsersAlike s t { p with tree := Builder.empty, recovering := false }
      { q with tree := Builder.empty, recovering := false } :=
    ⟨⟨h.first, h.second, h.position, h.stops⟩, rfl, rfl⟩
  have hfuel : q.fuel = p.fuel := by
    have hl := hfresh.lookahead_eq
    rw [fuel, fuel, show p.lookahead = _ from hl.1, show q.lookahead = _ from hl.2,
      Lookahead.left_eq_of_sameButLayout hs]
  obtain ⟨rs, ha, hp, hq, he⟩ := hfresh.runWithin hs p.fuel [entry.step]
  unfold Parser.run
  rw [hfuel]
  exact ⟨rs, ha, ⟨hp.listeners, hp.errorCount⟩, ⟨hq.listeners, hq.errorCount⟩, he⟩

theorem parse (hs : s.SameButLayout t) (h : PlacesAlike s t p q) (entry : Entry) : ∃ rs,
    ResultsAlike s t rs TreesAlike (p.parse entry).2 (q.parse entry).2 ∧
      (q.parse entry).1.position = (p.parse entry).1.position ∧
      Tells s rs p (p.parse entry).1 ∧ Tells t rs q (q.parse entry).1 := by
  obtain ⟨rs, ha, hp, hq, he⟩ := h.run hs entry
  unfold Parser.parse
  revert ha hp hq he
  rcases p.run entry with ⟨p', ending⟩
  rcases q.run entry with ⟨q', ending'⟩
  intro ha hp hq he
  have hroot : TreesAlike p'.tree.root q'.tree.root := by
    rw [TreesAlike, ← Builder.root_map, ← Builder.root_map, ha.tree]
  cases he with
  | finished => exact ⟨rs, .ok hroot, ha.position, ⟨hp.1, hp.2⟩, ⟨hq.1, hq.2⟩⟩
  | exhausted => exact ⟨rs, .ok hroot, ha.position, ⟨hp.1, hp.2⟩, ⟨hq.1, hq.2⟩⟩
  | thrown hr => exact ⟨rs, .error hr, ha.position, hp, hq⟩

end PlacesAlike

end ApexSyntax
