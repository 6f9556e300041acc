-- A text that is a type or an expression by itself, and the same tokens inside of another
-- text. What was read without a report is read there the same way, in front of a token that
-- goes on no expression.
import ApexSyntax.Proofs.Operands.Grounds
import ApexSyntax.Proofs.Printing.Climbing
import ApexSyntax.Proofs.Replay.Scripts

namespace ApexSyntax

/-- A loop goes along with another when each of its turns does. -/
theorem Ends.along {σ τ ρ υ : Type} {turn : σ → σ ⊕ ρ} {turn' : τ → τ ⊕ υ} {s : σ} {r : ρ}
    {f : σ → τ} {g : ρ → υ} (h : Ends turn s r) (hturn : ∀ s, turn' (f s) = (turn s).map f g) :
    Ends turn' (f s) (g r) := by
  induction h with
  | last hs => exact .last (by rw [hturn, hs]; rfl)
  | again hs _ ih => exact .again (by rw [hturn, hs]; rfl) ih

/-! ## One text inside of another -/

/-- The tokens of a stream stand in another from a place on, up to their places. Angles that
stand side by side touch there if they do here. -/
structure TokenStream.LiesIn (e s : TokenStream) (d : Nat) : Prop where
  window : e.Window Token.placeless s d
  angles : e.AnglesIn s d

namespace TokenStream

variable {e s : TokenStream} {d n : Nat}

/-- Behind the tokens of a text there are no angles. -/
theorem liesIn_iff : e.LiesIn s d ↔
    (∀ i < e.visible.size, (s.nth (i + d)).placeless = (e.nth i).placeless) ∧
      ∀ i < e.visible.size, ∀ m ∈ [Mark.lt, .gt], (e.nth i).kind = .mark m →
        (e.nth (i + 1)).kind = .mark m →
        ((s.nth (i + 1 + d)).index = (s.nth (i + d)).index + 1 ↔
          (e.nth (i + 1)).index = (e.nth i).index + 1) := by
  constructor
  · intro h
    exact ⟨h.window, fun i _ m hm => h.angles i m (by simpa using hm)⟩
  · rintro ⟨hw, ha⟩
    exact ⟨hw, fun i m hm h0 => ha i (lt_of_kind_mark h0) m (by simpa using hm) h0⟩

instance (e s : TokenStream) (d : Nat) : Decidable (e.LiesIn s d) :=
  decidable_of_iff _ liesIn_iff.symm

theorem LiesIn.kind_at {i : Nat} (h : e.LiesIn s d) (hn : i + n < e.visible.size) :
    Lookahead.kind ⟨s, i + d⟩ n = Lookahead.kind ⟨e, i⟩ n := by
  rw [Lookahead.kind, Lookahead.kind, Lookahead.nth, Lookahead.nth, Nat.add_right_comm]
  exact keepsWords_placeless.kind (h.window (i + n) hn)

theorem LiesIn.kind (h : e.LiesIn s d) (hn : n < e.visible.size) :
    Lookahead.kind ⟨s, d⟩ n = Lookahead.kind ⟨e, 0⟩ n := by
  rw [← h.kind_at (by rwa [Nat.zero_add]), Nat.zero_add]

/-- The end of the text goes on no expression. -/
theorem stopsOperands_of_size_le (h : s.visible.size ≤ n) : (s.nth n).stopsOperands = true := by
  rw [nth_of_le h, Token.stopsOperands, word_eof, kind_eof]
  rfl

theorem followsCast_of_size_le (h : s.visible.size ≤ n) :
    (s.nth n).kind.followsCast = false := by
  rw [nth_of_le h, kind_eof]
  rfl

/-- No expression goes on with a closing parenthesis or bracket. -/
theorem Spelled.stopsOperands {m : Mark} (h : s.Spelled) (hk : (s.nth n).kind = .mark m)
    (hm : m = .rParen ∨ m = .rBrack) : (s.nth n).stopsOperands = true := by
  have hw : (s.nth n).word = "" := h.word_nth (by rw [hk]; rfl)
  rcases hm with rfl | rfl <;> simp [Token.stopsOperands, hk, hw]

end TokenStream

namespace Lookahead

variable {v : Lookahead} {e s : TokenStream} {d j n m : Nat} {r : Option Nat}

/-! ## Scans from a place further on -/

theorem kind_behind (v : Lookahead) (j n : Nat) : (v.behind j).kind n = v.kind (j + n) := by
  rw [kind, kind, nth, nth, behind, Nat.add_assoc]

theorem isTypeName_behind (v : Lookahead) (j n : Nat) :
    (v.behind j).isTypeName n = v.isTypeName (j + n) := by
  rw [isTypeName, isTypeName, nth, nth, behind, Nat.add_assoc]

theorem dimensionsTurn_behind (v : Lookahead) (j n : Nat) :
    v.dimensionsTurn (j + n) = ((v.behind j).dimensionsTurn n).map (j + ·) (j + ·) := by
  simp only [dimensionsTurn, kind_behind, Nat.add_assoc]
  split <;> rfl

theorem dimensionsEnd_behind (v : Lookahead) (j n : Nat) :
    v.dimensionsEnd v.left (j + n) = j + (v.behind j).dimensionsEnd (v.behind j).left n :=
  (((v.behind j).scansEnd.dimensions n).along fun m => v.dimensionsTurn_behind j m).unique
    (v.scansEnd.dimensions (j + n))

/-- A turn that starts some places further on. -/
theorem typeTurn_behind (v : Lookahead) (j : Nat) (s : Bool × Nat × Nat) :
    v.typeTurn (s.1, s.2.1, j + s.2.2) =
      ((v.behind j).typeTurn s).map (fun s => (s.1, s.2.1, j + s.2.2)) (Option.map (j + ·)) := by
  obtain ⟨named, depth, n⟩ := s
  cases named with
  | false =>
    simp only [typeTurn, kind_behind, isTypeName_behind, Nat.add_assoc]
    repeat' split
    all_goals rfl
  | true =>
    simp only [typeTurn, kind_behind, isTypeName_behind, dimensionsEnd_behind, Nat.add_assoc]
    repeat' split
    all_goals rfl

/-- The scan of a type some places further on. -/
theorem typeEnd?_behind (v : Lookahead) (j n : Nat) :
    v.typeEnd? (j + n) = ((v.behind j).typeEnd? n).map (j + ·) :=
  (((v.behind j).scansEnd.type n).along (v.typeTurn_behind j)).unique (v.scansEnd.type (j + n))

/-- A closing parenthesis goes on with no type, so in front of it a scan ends where it does
at the end of the text. -/
theorem typeEnd?_of_liesIn (h : e.LiesIn s d)
    (hk : (s.nth (e.visible.size + d)).kind = .mark .rParen) :
    typeEnd? ⟨s, d⟩ 0 = typeEnd? ⟨e, 0⟩ 0 ∧
      ∀ m, typeEnd? ⟨e, 0⟩ 0 = some m → m ≤ e.visible.size := by
  refine typeEnd?_of_closing (fun n hn => h.kind hn) (.inr (kind_of_left_le (Nat.le_refl _))) ?_
    (Nat.zero_le _)
  rw [kind, nth, Nat.add_comm]
  exact hk

/-- Between parentheses the scan of a type ends where it does in the text by itself. -/
theorem typeEnd?_group (h : e.LiesIn s 1) (hk : (s.nth (e.visible.size + 1)).kind = .mark .rParen) :
    typeEnd? ⟨s, 0⟩ 1 = (typeEnd? ⟨e, 0⟩ 0).map (1 + ·) := by
  rw [← (typeEnd?_of_liesIn h hk).1]
  exact typeEnd?_behind ⟨s, 0⟩ 1 0

end Lookahead

/-! ## Whole texts -/

namespace Parser

/-- From its place on, the step reads all tokens of the text into one tree, and reports
nothing. -/
def ReadsAll (p : Parser) (st : Step) (t : Tree) : Prop :=
  ∃ q, Runs [st] p.fresh q ∧ q.errorCount = p.errorCount ∧
    q.position = p.stream.visible.size ∧ q.tree = Builder.empty.add t

/-- A call returns the tree, has read all tokens of the text and reported nothing. -/
structure Accepts (p : Parser) (entry : Entry) (t : Tree) : Prop where
  returns : (p.parse entry).2 = .ok t
  silent : (p.parse entry).1.errorCount = p.errorCount
  whole : (p.parse entry).1.position = p.stream.visible.size

section Calls

variable {p q : Parser} {entry : Entry} {st : Step} {t : Tree}

theorem lookahead_fresh (hp : p.position = 0) : p.fresh.lookahead = ⟨p.stream, 0⟩ := by
  rw [lookahead, show p.fresh.position = 0 from hp]
  rfl

theorem readsAll_of_accepts (h : p.Accepts entry t) : p.ReadsAll entry.step t := by
  obtain ⟨hreturns, hsilent, hwhole⟩ := h
  rcases run_ends p entry with ⟨q, hrun⟩ | ⟨q, e, hrun, -⟩
  · obtain ⟨tree, hcall, -, -⟩ := exists_call_of_finished hrun
    rw [hcall.returns] at hreturns hsilent hwhole
    cases hreturns
    have hroot := hcall.oneRoot
    rw [hrun] at hroot
    exact ⟨q, leads_of_runWithin hrun, hsilent, hwhole, hroot⟩
  · rw [parse, hrun] at hreturns
    cases hreturns

theorem accepts_of_runs (h : Runs [entry.step] p.fresh q) (he : q.errorCount = p.errorCount)
    (hpos : q.position = p.stream.visible.size) (ht : q.tree = Builder.empty.add t) :
    p.Accepts entry t := by
  have hrun := run_of_runs h
  obtain ⟨tree, hcall, -, -⟩ := exists_call_of_finished hrun
  have hroot := hcall.oneRoot
  rw [hrun] at hroot
  obtain rfl : t = tree := by
    have htrees := congrArg Builder.ground (ht.symm.trans hroot)
    exact (List.cons.inj (congrArg Array.toList htrees)).1
  constructor
  · rw [hcall.returns]
  · rw [hcall.returns]
    exact he
  · rw [hcall.returns]
    exact hpos

/-- A run that reports nothing is calm. -/
theorem tame_of_runs (h : Runs [st] p q) (hs : st.plain = true) (hp : p.recovering = false)
    (he : q.errorCount = p.errorCount) : Leads Tame [st] p q := by
  obtain ⟨_, ⟨_, hcareful⟩, rfl⟩ := h.chain fun hp _ hm => careful_perform hp hm
  have hguarded : Guarded [st] p q := (hcareful (.inl (careful_of_plain hs))).1
  exact tame_of_calm (calm_of_guarded hguarded hp he)
    (holds_of_steady (by simp [Step.Steady, hs]))

theorem ReadsAll.tame (h : p.ReadsAll st t) (hs : st.plain = true) :
    ∃ q, Leads Tame [st] p.fresh q ∧ q.position = p.stream.visible.size ∧
      q.tree = Builder.empty.add t := by
  obtain ⟨q, hrun, he, hpos, ht⟩ := h
  exact ⟨q, tame_of_runs hrun hs rfl he, hpos, ht⟩

theorem exists_accepts {rule : Rule}
    (hrule : (p.parse entry).2.toOption.bind Tree.rule? = some rule)
    (hsilent : (p.parse entry).1.errorCount = p.errorCount)
    (hwhole : (p.parse entry).1.position = p.stream.visible.size) :
    ∃ t, p.Accepts entry t ∧ t.rule? = some rule := by
  cases hparse : (p.parse entry).2 with
  | error _ =>
    rw [hparse] at hrule
    cases hrule
  | ok t =>
    rw [hparse] at hrule
    exact ⟨t, ⟨hparse, hsilent, hwhole⟩, hrule⟩

end Calls

/-! ## Stretches of a text -/

/-- From one place of the text up to another the steps read the tokens into the trees, up to
the places of these, and report nothing, whatever was built before. -/
def ReadsAt (s : TokenStream) (i : Nat) (ss : List Step) (j : Nat) (ts : List Tree) : Prop :=
  ∀ p : Parser, p.stream = s → p.position = i → ∃ q us, Runs ss p q ∧ Quietly p q ∧
    q.position = j ∧ q.tree = p.tree.addAll us ∧ SameThrough Token.placeless ts us

namespace ReadsAt

variable {s : TokenStream} {i j k : Nat} {ss ss' : List Step} {st : Step} {ts us : List Tree}
  {rule : Rule} {x : Expected} {t : Tree} {entry : Entry} {r : Parser}

theorem nothing : ReadsAt s i [] i [] := fun p _ hp => ⟨p, [], .done p, .refl p, hp, rfl, rfl⟩

theorem append (h : ReadsAt s i ss j ts) (h' : ReadsAt s j ss' k us) :
    ReadsAt s i (ss ++ ss') k (ts ++ us) := by
  intro p hs hp
  obtain ⟨q, ts', hq, hquiet, hpos, htree, hsame⟩ := h p hs hp
  obtain ⟨r, us', hr, hquiet', hpos', htree', hsame'⟩ := h' q (hquiet.stream.trans hs) hpos
  exact ⟨r, ts' ++ us', hq.append hr, hquiet.trans hquiet', hpos',
    by rw [htree', htree, Builder.addAll_append], hsame.append hsame'⟩

theorem cons (h : ReadsAt s i [st] j ts) (h' : ReadsAt s j ss k us) :
    ReadsAt s i (st :: ss) k (ts ++ us) := h.append h'

/-- A part reads what its steps read. -/
theorem part (h : ReadsAt s i ss j ts)
    (hst : ∀ p : Parser, p.stream = s → p.position = i → p.perform st = (p, .ok ss)) :
    ReadsAt s i [st] j ts := by
  intro p hs hp
  obtain ⟨q, us, hq, hrest⟩ := h p hs hp
  exact ⟨q, us, runs_part (hst p hs hp) hq, hrest⟩

theorem expr {part : ExprPart} (h : ReadsAt s i ss j ts)
    (hsteps : ∀ mark, part.expand ⟨s, i⟩ mark = ss) : ReadsAt s i [.expr part] j ts := by
  refine h.part ?_
  rintro p rfl rfl
  exact congrArg (fun steps => (p, Except.ok steps)) (hsteps p.tree.mark)

theorem take (hk : (s.nth i).kind ≠ .eof) : ReadsAt s i [.take 1] (i + 1) [.token (s.nth i)] := by
  rintro p rfl rfl
  exact ⟨p.take, [.token p.current], runs_one rfl, .take p,
    position_take_of_kind (p := p) hk, rfl, rfl⟩

theorem expect (hx : x.accepts (s.nth i) = true) (hreal : x.isReal = true) :
    ReadsAt s i [.expect x] (i + 1) [.token (s.nth i)] := by
  rintro p rfl rfl
  exact ⟨p.take, [.token p.current], runs_one (perform_expect hx), .take p,
    position_take_of_kind (Expected.kind_ne_eof (v := p.lookahead) hreal hx), rfl, rfl⟩

theorem takeMark {m : Mark} (hk : (s.nth i).kind = .mark m) :
    ReadsAt s i [.take 1] (i + 1) [.token (s.nth i)] := take (by rw [hk]; exact nofun)

theorem expectMark {m : Mark} (hk : (s.nth i).kind = .mark m) :
    ReadsAt s i [.expect (.mark m)] (i + 1) [.token (s.nth i)] := expect (beq_iff_eq.2 hk) rfl

/-- A node that is opened, filled and closed. -/
theorem node (h : ReadsAt s i ss j ts) :
    ReadsAt s i (.start rule :: ss ++ [Step.finish]) j [.node rule ts] := by
  intro p hs hp
  obtain ⟨q, us, hq, hquiet, hpos, htree, hsame⟩ := h (p.build (·.start rule)) hs hp
  refine ⟨q.build (·.finish), [.node rule us], ?_, ?_, hpos, ?_, hsame.node rule⟩
  · exact ((runs_one rfl).append hq).append (runs_one rfl)
  · exact (Quietly.build p _).trans (hquiet.trans (.build q _))
  · rw [tree_build, htree, tree_build, Builder.finish_addAll_start]
    rfl

/-- A node that is opened around what was read before. -/
theorem wrapped {p : Parser} {b : Builder} (rule : Rule) (h : ReadsAt s i ss j us)
    (hs : p.stream = s) (hp : p.position = i) (ht : p.tree = b.addAll ts) :
    ∃ q us', Runs (.wrap b.mark rule :: ss ++ [Step.finish]) p q ∧ Quietly p q ∧ q.position = j ∧
      q.tree = b.addAll [.node rule (ts ++ us')] ∧ SameThrough Token.placeless us us' := by
  obtain ⟨q, us', hq, hquiet, hpos, htree, hsame⟩ := h (p.build (·.wrap b.mark rule)) hs hp
  refine ⟨q.build (·.finish), us', ((runs_one rfl).append hq).append (runs_one rfl),
    (Quietly.build p _).trans (hquiet.trans (.build q _)), hpos, ?_, hsame⟩
  rw [tree_build, htree, tree_build, ht, Builder.wrap_addAll, ← Builder.addAll_append,
    Builder.finish_addAll_start]
  rfl

/-- A text that is read from its start to its end is accepted. -/
theorem accepts (h : ReadsAt s 0 [entry.step] s.visible.size [t])
    (hr : r.stream = s ∧ r.position = 0) : ∃ u, r.Accepts entry u ∧ TreesAlike t u := by
  obtain ⟨q, us, hq, hquiet, hpos, htree, hsame⟩ := h r.fresh hr.1 hr.2
  obtain ⟨u, rfl⟩ : ∃ u, us = [u] := List.length_eq_one_iff.1 hsame.length_eq
  rw [← hr.1] at hpos
  exact ⟨u, accepts_of_runs hq hquiet.errorCount hpos htree,
    by simpa [SameThrough, TreesAlike] using hsame⟩

/-- A text that is read up to another place than its end is not accepted. -/
theorem not_accepts (h : ReadsAt s 0 [entry.step] j ts) (hj : j ≠ s.visible.size)
    (hr : r.stream = s ∧ r.position = 0) : ¬r.Accepts entry t := by
  intro ht
  obtain ⟨q, hq, -, hwhole, -⟩ := readsAll_of_accepts ht
  obtain ⟨q', us, hq', -, hpos, -⟩ := h r.fresh hr.1 hr.2
  obtain rfl := hq.unique hq'
  rw [hr.1] at hwhole
  exact hj (hpos.symm.trans hwhole)

/-- An operand that no operator follows is a whole expression. -/
theorem expression (h : ReadsAt s i [.expr .unary] j ts)
    (hc : Lookahead.continuation ⟨s, j⟩ = none) : ReadsAt s i [.expr .expression] j ts := by
  intro p hs hp
  obtain ⟨q, us, hq, hquiet, hpos, htree⟩ := h p hs hp
  refine ⟨q, us, ?_, hquiet, hpos, htree⟩
  have hnone : q.lookahead.continuation = none := by
    rwa [lookahead, hquiet.stream, hs, hpos]
  exact runs_down (Nat.zero_le 13) (Nat.le_refl 13)
    (hq.append (runs_pending (by decide) fun j hj => by rw [hnone] at hj; cases hj))

end ReadsAt

/-- Behind the last token no expression goes on. -/
theorem continuation_at_end {s : TokenStream} :
    Lookahead.continuation ⟨s, s.visible.size⟩ = none := by
  have heof : Lookahead.kind ⟨s, s.visible.size⟩ 0 = .eof :=
    Lookahead.kind_of_left_le (Nat.le_of_eq (Nat.sub_self _))
  simp only [Lookahead.continuation, heof]

/-- A text that is read as an operand is accepted as an expression. -/
theorem ReadsAt.accepts_expression {s : TokenStream} {r : Parser} {t : Tree}
    (h : ReadsAt s 0 [.expr .unary] s.visible.size [t]) (hr : r.stream = s ∧ r.position = 0) :
    ∃ u, r.Accepts .expression u ∧ TreesAlike t u := by
  have hwhole : ReadsAt s 0 [Entry.expression.step] s.visible.size [t] :=
    h.expression continuation_at_end
  exact hwhole.accepts hr

end Parser

/-! ## Types and expressions inside of other texts -/

/-- The step reads a type or an expression. -/
def Step.isPhrase : Step → Bool
  | typ .type => true
  | expr p => (expr p).essential
  | _ => false

namespace Parser

section Phrases

variable {p q : Parser} {s : TokenStream} {d : Nat} {st : Step} {t : Tree}

theorem remarked_of_isPhrase (h : st.isPhrase = true) (x : Nat) : st.remarked x = st := by
  cases st with
  | typ part => rfl
  | expr part => cases part <;> first | rfl | cases h
  | _ => cases h

theorem plain_of_isPhrase (h : st.isPhrase = true) :
    st.plain = true ∧ st.essential = true ∧ st.closes = true ∧ st.embedded = true ∧
      st.groundLevel? = some 0 := by
  cases st with
  | typ part => cases part <;> first | exact ⟨rfl, rfl, rfl, rfl, rfl⟩ | cases h
  | expr part => exact ⟨rfl, h, rfl, rfl, rfl⟩
  | _ => cases h

/-- What is read up to the end of its text stands in front of a stop in the other one. -/
theorem stopsIn_of_tame (h : Leads Tame [st] p q) (hst : st.isPhrase = true)
    (hpos : q.position = p.stream.visible.size) (hs : p.stream.Spelled)
    (hin : p.stream.LiesIn s d)
    (hstop : (s.nth (p.stream.visible.size + d)).stopsOperands = true) :
    StopsIn Token.placeless p.stream s d where
  window := hin.window
  angles := hin.angles
  stop := hstop
  last := by
    obtain ⟨hplain, hessential, hcloses, -, -⟩ := plain_of_isPhrase hst
    have hclosed := endsClosed_of_tame h hs hcloses (lt_of_essential h hplain hessential)
    rwa [h.moves.stream, hpos] at hclosed

/-- What one parser reads with nothing before it, every parser reads that sees the same. -/
theorem readsAt_of_sees
    (hrun : Leads (fun p st => Calm true p st ∧ Sees Token.placeless s d p st) [st] p q)
    (hst : st.isPhrase = true) (hp : p.tree = Builder.empty)
    (hq : q.tree = Builder.empty.add t) : ReadsAt s (p.position + d) [st] (q.position + d) [t] := by
  intro r hr hd
  have hcopy : Copies Token.placeless Builder.empty r.tree s d 0 p r :=
    ⟨hr, hd, by rw [hp]; exact .refl _ _ _⟩
  have hlevel : levelFrom 0 [st] = some 0 := by
    rw [levelFrom, (plain_of_isPhrase hst).2.2.2.2]
    rfl
  obtain ⟨r', hruns, hcopy', hquiet⟩ := hcopy.replay_ground keepsWords_placeless rfl hrun hlevel
  obtain ⟨ts, us, hts, hus, hsame⟩ := hcopy'.tree.added
  obtain rfl : [t] = ts := by
    have hadd := congrArg Builder.ground (hq.symm.trans hts)
    rw [Builder.empty, Builder.addAll_ground] at hadd
    simpa [Builder.add] using congrArg Array.toList hadd
  refine ⟨r', us, ?_, hquiet, hcopy'.position, hus, hsame⟩
  have hshifted : st.shifted d = st := by
    cases st <;> first | rfl | cases hst
  simpa [remarkAll, remarked_of_isPhrase hst, hshifted] using hruns

/-- A parser sees what it sees itself. -/
theorem sees_same (p : Parser) (st : Step) : Sees Token.placeless p.stream 0 p st := by
  cases st <;>
    simp [Sees, Step.map_shifted_zero, lookahead, current, Lookahead.current, Lookahead.nth]

/-- What one parser reads calmly with nothing before it, every parser reads at its place. -/
theorem readsAt_of_tame (h : Leads Tame [st] p q) (hst : st.isPhrase = true)
    (hp : p.tree = Builder.empty) (hq : q.tree = Builder.empty.add t) :
    ReadsAt p.stream p.position [st] q.position [t] := by
  have hsees : Leads (fun r st => Calm true r st ∧ Sees Token.placeless p.stream 0 r st) [st] p q :=
    h.onStream.mono fun r st ha => ⟨ha.1.calm, by rw [← ha.2]; exact sees_same r st⟩
  exact readsAt_of_sees hsees hst hp hq

/-- What is read by itself is read in another text as well, in front of a token that goes on
no expression. Where that token may be the operand of a cast, it has to be an operand, and no
type in parentheses may stand last in it. -/
theorem ReadsAll.elsewhere (h : p.ReadsAll st t) (hst : st.isPhrase = true) (hp : p.position = 0)
    (hs : p.stream.Spelled) (hin : p.stream.LiesIn s d)
    (hstop : (s.nth (p.stream.visible.size + d)).stopsOperands = true)
    (hsettles : st.reaches (s.nth (p.stream.visible.size + d)).kind.followsCast = true →
      st = .expr .unary ∧ ¬p.lookahead.EndsInGroup) :
    ReadsAt s d [st] (p.stream.visible.size + d) [t] := by
  obtain ⟨hplain, -, -, hembedded, -⟩ := plain_of_isPhrase hst
  obtain ⟨q, hrun, hpos, htree⟩ := h.tame hplain
  have hstops : StopsIn Token.placeless p.stream s d :=
    stopsIn_of_tame (p := p.fresh) hrun hst hpos hs hin hstop
  have hp' : p.fresh.position = 0 := hp
  have hsees := sees_of_tame keepsWords_placeless hstops hrun hembedded rfl
    (by rw [hp']; exact Nat.zero_le _) fun _ => hsettles
  have hreads := readsAt_of_sees hsees hst rfl htree
  rwa [hp', Nat.zero_add, hpos] at hreads

end Phrases

end Parser

end ApexSyntax
