-- A unit is read up to its last brace in every stream that has the same tokens so far, and
-- there the brace or the end of the text. What stands behind that place has no part in it.
import ApexSyntax.Proofs.Replay.Braces
import ApexSyntax.Proofs.Replay.Scripts

namespace ApexSyntax

/-! ## The same tokens up to the last brace -/

namespace TokenStream

/-- A stream that has the tokens of another up to a brace, the last one there. It has the
brace too, or ends in its place. -/
structure Meets (t s : TokenStream) (e : Nat) : Prop where
  same : ∀ i < e, s.nth i = t.nth i
  last : t.visible.size = e + 1
  brace : (t.nth e).kind = .mark .rBrace
  stops : (s.nth e).kind = .mark .rBrace ∨ (s.nth e).kind = .eof

variable {t s : TokenStream} {e : Nat}

theorem Meets.anglesIn (h : t.Meets s e) : t.AnglesIn s 0 := by
  intro i m hm h0 h1
  have hlt := t.lt_of_kind_mark h1
  have hne : i + 1 ≠ e := by
    rintro rfl
    rw [h.brace] at h1
    rcases hm with rfl | rfl <;> cases h1
  have hlast := h.last
  have h2 := h.same i (by omega)
  have h3 := h.same (i + 1) (by omega)
  simp only [Nat.add_zero, h2, h3]

end TokenStream

section Halts

variable {v w : Lookahead}

theorem StmtPart.expand_of_nth (p : StmtPart) (hs : (Step.stmt p).halts = true)
    (h : w.nth 0 = v.nth 0) : p.expand w = p.expand v := by
  cases p with
  | elseBranch | moreHandlers => simp [expand, Lookahead.atKeyword, Lookahead.kind, h]
  | _ => cases hs

theorem DeclPart.expand_of_nth (p : DeclPart) (hs : (Step.decl p).halts = true)
    (h : w.nth 0 = v.nth 0) (hp : w.position = v.position) : p.expand w = p.expand v := by
  cases p with
  | classMembers | interfaceMembers | triggerMembers | moreConstants =>
    simp [expand, untilBrace, Lookahead.atMark, Lookahead.kind, h, hp]
  | enumConstants =>
    simp only [expand]
    rw [show w.isIdentifier 0 = v.isIdentifier 0 from congrArg Token.isIdentifier h]
  | _ => cases hs

theorem StmtPart.expand_of_stops (p : StmtPart) (hs : (Step.stmt p).halts = true)
    (h : v.kind 0 = .mark .rBrace ∨ v.kind 0 = .eof) : p.expand v = [] := by
  cases p with
  | elseBranch | moreHandlers =>
    rcases h with h | h <;> simp [expand, Lookahead.atKeyword, h]
  | _ => cases hs

/-- At a brace and at the end of the text, a list asks for the brace. -/
theorem DeclPart.expand_of_stops (p : DeclPart) (hs : (Step.decl p).halts = true)
    (hv : v.kind 0 = .mark .rBrace ∨ v.kind 0 = .eof)
    (hw : w.kind 0 = .mark .rBrace ∨ w.kind 0 = .eof) : p.expand w = p.expand v := by
  have hid : ∀ u : Lookahead, u.kind 0 = .mark .rBrace ∨ u.kind 0 = .eof →
      u.isIdentifier 0 = false := by
    rintro u (h | h) <;>
      simp [Lookahead.isIdentifier, Token.isIdentifier, Kind.isSoftKeyword,
        show (u.nth 0).kind = _ from h]
  cases p with
  | classMembers | interfaceMembers | triggerMembers | moreConstants =>
    rcases hv with hv | hv <;> rcases hw with hw | hw <;>
      simp [expand, untilBrace, Lookahead.atMark, hv, hw]
  | enumConstants => simp [expand, hid v hv, hid w hw]
  | _ => cases hs

end Halts

namespace Builder

/-- Closes the `n` innermost open nodes. -/
def finishMany (b : Builder) : Nat → Builder
  | 0 => b
  | n + 1 => b.finish.finishMany n

theorem leaves_finishMany (b : Builder) (n : Nat) : (b.finishMany n).leaves = b.leaves := by
  induction n generalizing b with
  | zero => rfl
  | succ n ih => rw [finishMany, ih, leaves_finish]

theorem leaves_addAll (b : Builder) (ts : List Tree) :
    (b.addAll ts).leaves = b.leaves ++ leavesOf ts := by
  induction ts generalizing b with
  | nil => simp
  | cons t ts ih =>
    rw [addAll, List.foldl_cons, ← addAll, ih, leaves_add,
      List.append_assoc]
    rfl

end Builder

namespace Parser

section Sees

variable {s : TokenStream} {e : Nat} {p : Parser} {st : Step}

theorem sees_halting (h : p.stream.Meets s e) (hp : p.position ≤ e) (hs : st.halts = true) :
    Sees id s 0 p st := by
  have hsame : p.position ≠ e → Lookahead.nth ⟨s, p.position⟩ 0 = p.lookahead.nth 0 :=
    fun hne => h.same p.position (by omega)
  have hbrace : p.position = e → (p.lookahead.kind 0 = .mark .rBrace ∨ p.lookahead.kind 0 = .eof) ∧
      (Lookahead.kind ⟨s, p.position⟩ 0 = .mark .rBrace ∨
        Lookahead.kind ⟨s, p.position⟩ 0 = .eof) := by
    rintro rfl
    exact ⟨.inl h.brace, h.stops⟩
  cases st with
  | finish | progress _ => trivial
  | stmt part =>
    rw [Sees, Step.map_shifted_zero]
    by_cases he : p.position = e
    · obtain ⟨hv, hw⟩ := hbrace he
      exact (part.expand_of_stops hs hw).trans (part.expand_of_stops hs hv).symm
    · exact part.expand_of_nth hs (hsame he)
  | decl part =>
    rw [Sees, Step.map_shifted_zero]
    by_cases he : p.position = e
    · obtain ⟨hv, hw⟩ := hbrace he
      exact part.expand_of_stops hs hv hw
    · exact part.expand_of_nth hs (hsame he) rfl
  | _ => cases hs

theorem sees_of_ahead (h : p.stream.Meets s e) (ha : Ahead e p st) : Sees id s 0 p st := by
  rcases ha.place with ⟨j, hpj, hje, hb, hn⟩ | ⟨hp, hs⟩ | ⟨hp, hs⟩
  · have hw : ∀ i < j + 1, id (s.nth (i + 0)) = id (p.stream.nth i) :=
      fun i hi => h.same i (by omega)
    have hf : KeepsWords id := ⟨congrArg Token.kind, congrArg Token.word⟩
    refine sees_in_front hf hw hb ?_ (by omega) hn
    intro level m _
    have halike := TokenStream.alike_of_agrees hf hw (i := p.position) (by omega) hb
    exact halike.operatorAhead (h.anglesIn.anglesAlike p.position) level
  · have hcur : s.nth p.position = p.current := h.same p.position hp
    cases st with
    | take n =>
      obtain rfl : n = 1 := beq_iff_eq.1 hs
      intro i hi
      obtain rfl : i = 0 := by omega
      exact hcur
    | expect _ => exact hcur
    | _ => cases hs
  · exact sees_halting h hp hs

end Sees

/-! ## Runs that are left off, on another stream -/

section Replay

variable {allowed : Parser → Step → Prop} {f : Token → Token} {b c : Builder} {s : TokenStream}
  {d k k' : Nat} {p q r : Parser} {st : Step} {ss ts more : List Step} {entry : Entry}
  {e : SyntaxError}

theorem levelBehind_append (k : Nat) (ss ts : List Step) :
    levelBehind k (ss ++ ts) = (levelBehind k ss).bind (levelBehind · ts) := by
  induction ss generalizing k with
  | nil => rfl
  | cons s ss ih =>
    rw [List.cons_append, levelBehind, levelBehind, Option.bind_assoc]
    exact congrArg _ (funext ih)

/-- A calm run of steps that all see the same is replayed up to where it is left off. -/
theorem Copies.comes (hf : KeepsWords f)
    (h : Comes (fun p st => Calm true p st ∧ Sees f s d p st) ss p ts q)
    (hk : levelBehind k ss = some k') (hc : Copies f b c s d k p r) :
    ∃ k₁ r', Comes (fun _ _ => True) (ss.map (Step.shifted d)) r (ts.map (Step.shifted d)) r' ∧
      Copies f b c s d k₁ q r' ∧ Quietly r r' := by
  induction h generalizing k k' r with
  | here ss p => exact ⟨k, r, .here _ r, hc, .refl r⟩
  | perform ha hp _ ih =>
    rw [levelBehind, Option.bind_eq_some_iff] at hk
    obtain ⟨k₁, hk1, hk2⟩ := hk
    obtain ⟨k₀, r1, hr1, hc1, hl, hq1⟩ := hc.perform hf ha.1 ha.2 hp hk1
    obtain ⟨k₂, r2, hr2, hc2, hq2⟩ := ih (by rw [levelBehind_append, hl]; exact hk2) hc1
    rw [List.map_append] at hr2
    exact ⟨k₂, r2, .perform trivial hr1 hr2, hc2, hq1.trans hq2⟩

theorem run_of_comes (h : Comes allowed [entry.step] p.fresh ts q) (hr : Runs ts q r) :
    p.run entry = (r, .finished) :=
  run_of_runs ((h.mono fun _ _ _ => trivial).leads hr)

/-- A run that is left off at a step that throws ends there. -/
theorem exists_runWithin_error (h : Comes allowed ss p (st :: ts) q)
    (hr : q.perform st = (r, .error e)) : ∃ n, runWithin n ss p = (r, .thrown e) := by
  generalize hus : st :: ts = us at h
  induction h with
  | here ss p =>
    subst hus
    exact ⟨1, by rw [runWithin, hr]⟩
  | perform _ hp _ ih =>
    obtain ⟨n, hn⟩ := ih hr hus
    exact ⟨n + 1, by rw [runWithin, hp]; exact hn⟩

theorem run_of_comes_error (h : Comes allowed [entry.step] p.fresh (st :: ts) q)
    (hr : q.perform st = (r, .error e)) : p.run entry = (r, .thrown e) := by
  obtain ⟨n, hn⟩ := exists_runWithin_error h hr
  exact run_of_runWithin hn nofun

end Replay

/-! ## Units -/

/-- A unit that ends with a brace, with the rule of its node and the steps in it. -/
inductive BracedUnit : Entry → Rule → List Step → Prop
  | type : BracedUnit .compilationUnit .compilationUnit [.decl .declaration]
  | trigger : BracedUnit .triggerUnit .triggerUnit
      [.expect (.keyword .triggerKw), .expect .identifier, .expect (.keyword .onKw),
        .expect .identifier, .expect (.mark .lParen), .decl .triggerCase,
        .decl .moreTriggerCases, .expect (.mark .rParen), .decl .triggerBlock]

namespace BracedUnit

variable {entry : Entry} {r : Rule} {body : List Step} {p q : Parser}

theorem perform (h : BracedUnit entry r body) (p : Parser) :
    p.perform entry.step = (p, .ok (.start r :: body ++ [Step.endOfText, .finish])) := by
  cases h <;> rfl

theorem levelBehind (h : BracedUnit entry r body) : levelBehind 1 body = some 1 := by
  cases h <;> rfl

theorem closes (h : BracedUnit entry r body) : closes 0 body = true := by
  cases h <;> rfl

theorem holds (h : BracedUnit entry r body) (v : Lookahead) : v.Holds body := by
  cases h <;> exact holds_of_steady
    (by simp [Step.Steady, Step.plain, Expected.isReal, Expected.keyword, Expected.mark])

theorem enclosed (h : BracedUnit entry r body) (hs : p.stream.Spelled)
    (hr : Leads Tame body p q) : Enclosed body p := by
  cases h with
  | type => exact enclosed_declaration hs hr
  | trigger =>
    refine .within [.expect (.keyword .triggerKw), .expect .identifier,
      .expect (.keyword .onKw), .expect .identifier, .expect (.mark .lParen),
      .decl .triggerCase, .decl .moreTriggerCases, .expect (.mark .rParen)] 0 hr ?_
    exact fun _ _ hstream => enclosed_triggerBlock (by rwa [hstream])

end BracedUnit

theorem exists_bracedUnit {entry : Entry}
    (hu : entry = .compilationUnit ∨ entry = .triggerUnit) :
    ∃ r body, BracedUnit entry r body := by
  rcases hu with rfl | rfl
  · exact ⟨_, _, .type⟩
  · exact ⟨_, _, .trigger⟩

/-- The parser as it starts on the parts of a unit. -/
def atUnit (p : Parser) (r : Rule) : Parser := p.fresh.build (·.start r)

/-- A parser in front of the last brace of a unit, with some nodes to close behind it and
the children that the node of the unit gets. -/
structure AtBrace (p : Parser) (r : Rule) (body : List Step) (n : Nat) (b : Parser)
    (ts : List Tree) : Prop where
  comes : ComesToBrace body (List.replicate n .finish) (p.atUnit r) b
  last : p.stream.visible.size = b.position + 1
  tree : (b.tree.add (.token b.current)).finishMany n = (Builder.empty.start r).addAll ts

section Units

variable {p q b c : Parser} {s t : TokenStream} {entry : Entry} {r : Rule} {body : List Step}
  {n : Nat} {ts : List Tree}

theorem runs_finishes (n : Nat) (p : Parser) :
    Runs (List.replicate n .finish) p (p.build (·.finishMany n)) := by
  induction n generalizing p with
  | zero => exact .done p
  | succ n ih => exact .cons (runs_one rfl) (ih (p.build (·.finish)))

/-- In a calm run, the end of the text is there where a unit asks for it. -/
theorem endOfText_of_calm (h : Leads (Calm true) [.endOfText] p q) : AtEnd p ∧ q = p.take := by
  obtain ⟨p', more, hp, hm⟩ := h.inv
  cases h with
  | perform ha _ _ _ =>
    have hperf := hp
    simp only [perform] at hp
    split at hp
    · cases hp
      cases hm
      exact ⟨atEnd_of_isEof ‹_›, rfl⟩
    · obtain ⟨hrep, _⟩ := reportThen_ok hp
      exact absurd rfl (ne_true_of_report ha hperf hrep)

/-- Where no error is reported, a unit is read calmly up to its last brace, which is the
last token of the text. -/
theorem exists_atBrace (hu : BracedUnit entry r body) (hs : p.stream.Spelled)
    (he : (p.parse entry).1.errorCount = p.errorCount) :
    ∃ n b ts, AtBrace p r body n b ts ∧
      (p.parse entry).2 = .ok (.node r (ts ++ [Tree.token p.stream.eof])) ∧
      ∀ l ∈ leavesOf ts, l.isSkipped = false := by
  rw [errorCount_parse] at he
  rcases run_ends p entry with ⟨last, hrun⟩ | ⟨last, e, hthrown, _⟩
  · rw [hrun] at he
    have hcalm := calm_of_guarded (guarded_entry (leads_of_runWithin hrun)) rfl he
    obtain ⟨p', more, hperf, hm⟩ := hcalm.inv
    rw [hu.perform] at hperf
    cases hperf
    obtain ⟨q, hbody, hend⟩ := hm.split
    obtain ⟨p1, h1, hbody⟩ := hbody.uncons
    obtain rfl : p1 = p.atUnit r := h1.single rfl
    obtain ⟨q1, hq1, hlast⟩ := hend.uncons
    obtain ⟨hatEnd, rfl⟩ := endOfText_of_calm hq1
    obtain rfl : last = q.behindUnit := hlast.single rfl
    have htame := tame_of_calm hbody (hu.holds _)
    obtain ⟨ts, hts⟩ := adds_of_closes hu.closes hbody.shaped
    have hstream : q.stream = p.stream := hbody.moves.stream
    have hresult : (p.parse entry).2 = .ok (.node r (ts ++ [Tree.token p.stream.eof])) := by
      rw [parse_of_run hrun nofun, ← hstream]
      exact congrArg Except.ok (root_behindUnit hatEnd hts)
    have hclean : ∀ l ∈ leavesOf ts, l.isSkipped = false := by
      obtain ⟨tree, hc, _⟩ := exists_call_of_finished hrun
      have hzero := hc.errorCount_eq_zero he
      rw [hc.returns] at hresult
      cases hresult
      intro l hl
      have hmem : l ∈ (Tree.node r (ts ++ [Tree.token p.stream.eof])).leaves := by
        rw [Tree.leaves_node, List.flatMap_append]
        exact List.mem_append_left _ hl
      simpa using List.countP_eq_zero.1 hzero l hmem
    obtain ⟨n, b, j, hb, _⟩ := hu.enclosed (p := p.atUnit r) hs htame
    obtain ⟨b1, hb1, hfin⟩ := (htame.behind hb.comes).uncons
    obtain ⟨_, rfl, hpos⟩ := expect_of_tame (by rfl) hb1
    obtain rfl : q = b.take.build (·.finishMany n) := (runs_finishes n b.take).unique hfin
    refine ⟨n, b, ts, ⟨hb, ?_, hts⟩, hresult, hclean⟩
    have hlt : b.position < b.stream.visible.size :=
      (kind_ne_eof_iff b).1 (by rw [hb.brace]; simp)
    have hsize : b.stream.visible.size ≤ b.take.position := hatEnd
    rw [← hstream]
    show b.stream.visible.size = b.position + 1
    omega
  · have hlt : p.fresh.errorCount < last.errorCount := errorCount_lt_of_thrown hthrown
    rw [hthrown] at he
    exact absurd he (Nat.ne_of_gt hlt)

/-- A stream that meets another at its last brace is read in the same way up to there. -/
theorem AtBrace.replay (h : AtBrace p r body n b ts) (hu : BracedUnit entry r body)
    (hm : p.stream.Meets s b.position) (hq : q.stream = s) (hpos : q.position = p.position) :
    ∃ c, Comes (fun _ _ => True) [entry.step] q.fresh
        (.expect (.mark .rBrace) :: (List.replicate n Step.finish ++ [Step.endOfText, .finish])) c ∧
      c.stream = s ∧ c.position = b.position ∧ c.tree = b.tree ∧ Quietly q.fresh c := by
  have hcopy : Copies id Builder.empty Builder.empty s 0 1 (p.atUnit r) (q.atUnit r) :=
    ⟨hq, hpos, (Builder.Beside.refl id Builder.empty Builder.empty).start r⟩
  have hsees : Comes (fun p' st => Calm true p' st ∧ Sees id s 0 p' st) body (p.atUnit r)
      (.expect (.mark .rBrace) :: List.replicate n .finish) b := by
    refine h.comes.comes.onStream.mono ?_
    rintro p' st ⟨ha, hstream⟩
    exact ⟨ha.calm, sees_of_ahead (by rw [hstream]; exact hm) ha⟩
  obtain ⟨k, c, hc, hcopy, hquiet⟩ :=
    hcopy.comes ⟨congrArg Token.kind, congrArg Token.word⟩ hsees hu.levelBehind
  rw [Step.map_shifted_zero, Step.map_shifted_zero] at hc
  refine ⟨c, ?_, hcopy.stream, hcopy.position, hcopy.tree.eq, (Quietly.build _ _).trans hquiet⟩
  refine .perform trivial (hu.perform q.fresh) ?_
  rw [List.append_nil]
  exact .perform trivial rfl (hc.append [.endOfText, .finish])

theorem AtBrace.brace (h : AtBrace p r body n b ts) :
    (p.stream.nth b.position).kind = .mark .rBrace := by
  have hstream : b.stream = p.stream := h.comes.comes.moves.stream
  rw [← hstream]
  exact h.comes.brace

/-- Where the same brace stands in the other stream, the whole unit is read there. -/
theorem AtBrace.replay_behind (h : AtBrace p r body n b ts) (hu : BracedUnit entry r body)
    (hm : p.stream.Meets s b.position) (hb : s.nth b.position = b.current) (hq : q.stream = s)
    (hpos : q.position = p.position) :
    ∃ c, Comes (fun _ _ => True) [entry.step] q.fresh [.endOfText, .finish] c ∧
      c.stream = s ∧ c.position = b.position + 1 ∧
      c.tree = (Builder.empty.start r).addAll ts ∧ Quietly q.fresh c := by
  obtain ⟨c, hc, rfl, hcpos, htree, hquiet⟩ := h.replay hu hm hq hpos
  have hcur : c.current = b.current := by rw [current_eq, hcpos, hb]
  have hkind : c.lookahead.kind 0 = .mark .rBrace := by
    rw [kind_lookahead, hcur]
    exact h.comes.brace
  have hbrace : c.perform (.expect (.mark .rBrace)) = (c.take, .ok []) :=
    perform_expect (beq_iff_eq.2 hkind)
  refine ⟨c.take.build (·.finishMany n), ?_, rfl, ?_, ?_,
    hquiet.trans ((Quietly.take c).trans (.build _ _))⟩
  · exact hc.trans ((Leads.append (runs_one hbrace) (runs_finishes n c.take)).comes _)
  · rw [position_build, position_take_of_kind (by rw [hkind]; simp), hcpos]
  · rw [tree_build, tree_take, hcur, htree, h.tree]

/-- The leaves in front of the last brace of a unit are leaves of the unit. -/
theorem AtBrace.mem_leaves {l : Leaf} (h : AtBrace p r body n b ts) (hl : l ∈ b.tree.leaves) :
    l ∈ leavesOf ts := by
  have hleaves := congrArg Builder.leaves h.tree
  rw [Builder.leaves_finishMany, Builder.leaves_add, Builder.leaves_addAll,
    Builder.leaves_start] at hleaves
  have hempty : Builder.empty.leaves = [] := rfl
  rw [hempty, List.nil_append] at hleaves
  rw [← hleaves]
  exact List.mem_append_left _ hl

end Units

end Parser

end ApexSyntax
