-- The end of the text among the leaves of a tree. A unit matches it once, as its last leaf.
-- Besides, a call skips it where a statement is missing at the end of the text, and then
-- once: what is left to do at the end asks for no other statement.
import ApexSyntax.Proofs.Parser.EndSkips
import ApexSyntax.Proofs.Parser.Silence
import ApexSyntax.Proofs.Replay.Braces

namespace ApexSyntax

namespace Parser

/-! ## No statement at the end -/

/-- No statement is asked for at the end of the text. -/
def AsksNone (p : Parser) (s : Step) : Prop := s = .stmt .statement → ¬ AtEnd p

/-- The law of fair steps in runs that ask for no statement at the end. -/
abbrev NoEndLaw (s : Step) (p q : Parser) : Prop := s ≠ .skip → Fair p s → SameEnds p q

abbrev NoEndLawAll : List Step → Parser → Parser → Prop :=
  Chain fun s p q => Leads AsksNone [s] p q ∧ NoEndLaw s p q

section NoEnds

variable {p p' q : Parser} {s : Step} {ss more : List Step}

theorem sameEnds_of_notSkip (h : NoEndLawAll ss p q) (hf : FairAll p ss)
    (hs : .skip ∉ ss) : SameEnds p q := by
  induction ss generalizing p with
  | nil => cases h; exact .refl _
  | cons s ss ih =>
    obtain ⟨r, ⟨hrun, hlaw⟩, h⟩ := h
    simp only [List.mem_cons, not_or] at hs
    have hsame := hlaw (Ne.symm hs.1) hf.head
    exact hsame.trans (ih h (hf.tail (hrun.mono fun _ _ _ => trivial)) hs.2)

/-- Before the end, a statement that nothing can start is skipped token by token. -/
theorem sameEnds_of_refused {r : Rule} {c : Complaint} (hp : ¬ AtEnd p)
    (h : NoEndLawAll [.start r, .complain c, .skip, .finish] p q) : SameEnds p q := by
  obtain ⟨p1, ⟨h1, -⟩, p2, ⟨h2, -⟩, p3, ⟨h3, -⟩, p4, ⟨h4, -⟩, rfl⟩ := h
  obtain rfl := h1.single rfl
  obtain ⟨p', more, hperf, hm⟩ := h2.inv
  obtain ⟨rfl, rfl⟩ := reportThen_ok hperf
  cases hm
  obtain rfl := h3.single rfl
  obtain rfl := h4.single rfl
  have hskip : ¬ AtEnd ((p.build (·.start r)).report
      (complaintMessage (p.build (·.start r)).current c)).1 := by
    rwa [AtEnd, stream_report, position_report]
  exact ((sameEnds_build (by simp)).trans (sameEnds_report _ _)).trans
    ((sameEnds_skip hskip).trans (sameEnds_build (by simp)))

/-- A part is replaced by steps of which none skips a token as it comes, or by those of a
statement that nothing can start. -/
theorem notSkip_of_form {v : Lookahead} {x : Step} (hx : x.plain = true) (hf : Form v x ss) :
    .skip ∉ ss ∨ ∃ r c, ss = [.start r, .complain c, .skip, .finish] := by
  cases hf with
  | calm hl =>
    simp only [lighter, Bool.and_eq_true, List.all_eq_true] at hl
    exact .inl fun hmem => absurd (hl.1.2 _ hmem).1 Bool.false_ne_true
  | reads hv hb _ hr =>
    refine .inl fun hmem => ?_
    rcases hr _ (mem_behindFirst hb hmem (.inl rfl)) with hp | hp <;> cases hp
  | turn items _ _ _ _ _ hp _ =>
    refine .inl fun hmem => ?_
    rcases List.mem_append.1 hmem with hmem | hmem
    · exact absurd (Bool.and_eq_true_iff.1 (List.all_eq_true.1 hp _ hmem)).1 Bool.false_ne_true
    · simp only [List.mem_cons, reduceCtorEq, List.not_mem_nil, or_false, false_or] at hmem
      subst hmem
      cases hx
  | refused _ => exact .inr ⟨_, _, rfl⟩

/-- A part in a run that asks for no statement at the end. -/
theorem sameEnds_part (hx : s.plain = true) (ha : AsksNone p s) (hf : Form p.lookahead s more)
    (hfair : FairAll p more) (hkeeps : KeepsEnds s p q) (hm : NoEndLawAll more p q)
    (hnone : s.skipsEnd = true → s = .stmt .statement ∨ .skip ∉ more) : SameEnds p q := by
  rcases notSkip_of_form hx hf with hskip | ⟨r, c, rfl⟩
  · exact sameEnds_of_notSkip hm hfair hskip
  by_cases hend : AtEnd p
  · cases hs : s.skipsEnd with
    | false => exact hkeeps.atEnd hend hs
    | true =>
      rcases hnone hs with hs | hnone
      · exact absurd hend (ha hs)
      · exact sameEnds_of_notSkip hm hfair hnone
  · exact sameEnds_of_refused hend hm

theorem noEndLaw_perform (ha : AsksNone p s) (h : p.perform s = (p', .ok more))
    (hl : Leads AsksNone more p' q) (hm : NoEndLawAll more p' q) : NoEndLaw s p q := by
  intro hskip hfair
  have hrun : Runs [s] p q := .perform trivial h (hl.mono fun _ _ _ => trivial) (.done q)
  have hkeeps := endLaw_of_runs hrun hfair
  cases s with
  | skip => exact absurd rfl hskip
  | endOfText => cases hfair.plain rfl
  | expectThen e next =>
    obtain ⟨he, hn⟩ := Bool.and_eq_true_iff.1 (hfair.plain rfl)
    rcases ends_expect (fun hc => hc.1.mono fun _ _ _ => trivial) he h hm with
      hsame | ⟨-, r, hsame, -, _, ⟨-, hlaw⟩, rfl⟩
    · exact hsame
    · exact hsame.trans (hlaw (by rintro rfl; cases hn) (fair_of_plain hn))
  | stmt part =>
    cases h
    refine sameEnds_part rfl ha part.form (fairAll_of_form rfl part.form fun _ => part.take_le)
      hkeeps hm fun hs => ?_
    cases part with
    | statement => exact .inl rfl
    | loopBody =>
      simp only [StmtPart.expand]
      split <;> simp
    | _ => cases hs
  | decl part =>
    have hplain := hfair.plain rfl
    cases h
    refine sameEnds_part hplain ha (part.form hplain)
      (fairAll_of_form hplain (part.form hplain) fun _ => part.take_le) hkeeps hm fun hs => ?_
    cases part with
    | blockMember r =>
      simp only [DeclPart.expand]
      split <;> simp
    | _ => cases hs
  | _ => exact hkeeps.spared rfl

end NoEnds

/-! ## Calls that come to a statement at the end -/

/-- The call comes to a statement at the end of the text. -/
def AsksAtEnd (p : Parser) (entry : Entry) : Prop :=
  ∃ rest q, Comes (fun _ _ => True) [entry.step] p.fresh (.stmt .statement :: rest) q ∧ AtEnd q

section Asks

variable {allowed : Parser → Step → Prop} {p q r : Parser} {entry : Entry} {ss rest : List Step}

/-- What holds of every step that a run comes to is allowed all along the run. -/
theorem leads_of_comes (h : Runs ss p q)
    (ha : ∀ s rest r, Comes (fun _ _ => True) ss p (s :: rest) r → allowed r s) :
    Leads allowed ss p q := by
  induction h with
  | done p => exact .done p
  | perform _ hp hm _ ih1 ih2 =>
    refine .perform (ha _ _ _ (.here _ _)) hp (ih1 fun s rest' r hc => ?_)
      (ih2 fun s rest' r hc => ?_)
    · exact ha s _ r (.perform trivial hp (hc.append _))
    · exact ha s rest' r (.perform trivial hp ((hm.comes _).trans hc))

theorem asksNone_of_not_asksAtEnd (h : Runs [entry.step] p.fresh q) (ha : ¬ AsksAtEnd p entry) :
    Leads AsksNone [entry.step] p.fresh q := by
  refine leads_of_comes h fun s rest r hc => ?_
  rintro rfl hend
  exact ha ⟨rest, r, hc, hend⟩

theorem leaves_kept : Kept fun p q => p.tree.leaves <+: q.tree.leaves where
  refl _ := List.prefix_rfl
  trans := List.IsPrefix.trans
  take p := by rw [tree_take, Builder.leaves_add]; exact List.prefix_append ..
  report p message := by simp [tree_report]
  start p r := by simp
  wrap p mark r := by simp
  finish p := by simp

/-- Leaves stay. -/
theorem leaves_prefix_of_runs (h : Runs ss p q) : p.tree.leaves <+: q.tree.leaves := by
  refine h.keeps (R := fun p q => p.tree.leaves <+: q.tree.leaves) leaves_kept.refl
    (fun _ _ _ => leaves_kept.trans) fun _ p _ _ _ hp => leaves_kept.perform hp fun _ => ?_
  rw [leaves_skip]
  exact List.prefix_append ..

theorem expand_statement_of_eof {v : Lookahead} (hv : v.kind 0 = .eof) :
    StmtPart.statement.expand v =
      [.start .statement, .complain .noAlternative, .skip, .finish] := by
  simp only [StmtPart.expand, statementSteps, hv, Lookahead.localVariableAhead,
    Lookahead.atKeyword_of_eof hv, Lookahead.typedNameAhead_of_eof hv,
    Lookahead.isIdentifier_of_eof hv, Kind.isDml, Kind.startsExpression, Kind.followsCast,
    Kind.isLiteral, reduceCtorEq, false_and, Bool.or_self, Bool.false_eq_true, if_false]
  rfl

/-- A statement at the end of the text skips the end. -/
theorem skipsEnd_of_statement (h : Runs [.stmt .statement] p q) (hp : AtEnd p) :
    ⟨p.stream.eof, true⟩ ∈ q.tree.leaves := by
  obtain ⟨p', more, hperf, hm⟩ := h.inv
  cases hperf
  rw [expand_statement_of_eof (beq_iff_eq.1 ((isEof_current_iff p).2 hp))] at hm
  obtain ⟨p1, h1, hm⟩ := hm.uncons
  obtain ⟨p2, h2, hm⟩ := hm.uncons
  obtain ⟨p3, h3, hm⟩ := hm.uncons
  have hmoves := h1.moves.trans h2.moves
  have hcurrent : p2.current = p2.stream.eof := TokenStream.nth_of_le (hp.moves hmoves)
  obtain rfl := h3.single rfl
  refine (leaves_prefix_of_runs hm).subset ?_
  rw [leaves_skip, hcurrent, hmoves.stream]
  simp

theorem mem_of_asksAtEnd (h : Runs [entry.step] p.fresh q) (ha : AsksAtEnd p entry) :
    ⟨p.stream.eof, true⟩ ∈ q.tree.leaves := by
  obtain ⟨rest, r, hc, hend⟩ := ha
  obtain ⟨r', hstatement, hrest⟩ := (h.behind hc).uncons
  refine (leaves_prefix_of_runs hrest).subset ?_
  have hmem := skipsEnd_of_statement hstatement hend
  rwa [hc.moves.stream] at hmem

end Asks

/-! ## The steps of a call -/

/-- Steps in front of the end of the text. At most one can come to skip the end. -/
structure Front (ss : List Step) : Prop where
  plain : ∀ s ∈ ss, s.plain = true
  once : endsOnce ss = true

/-- The end of the text is matched, and nothing is read behind it. -/
structure MatchesLast (p q : Parser) : Prop where
  ends : endsOf q.tree.leaves = endsOf p.tree.leaves ++ [⟨p.stream.eof, false⟩]
  last : q.tree.leaves.getLast? = some ⟨p.stream.eof, false⟩

section Calls

variable {allowed : Parser → Step → Prop} {p q r : Parser} {entry : Entry} {ss : List Step}

theorem Front.fairAll (h : Front ss) (p : Parser) : FairAll p ss := by
  refine ⟨holds_of_steady fun s hs => .inl (h.plain s hs), fun i hi => ?_⟩
  cases h.plain _ hi

theorem Front.once_of_runs (h : Front ss) (hr : Runs ss p q) : SameEnds p q ∨ SkipsEnd p q :=
  once_of_endsOnce (hr.chain fun hp _ hm => endLaw_perform hp hm) (h.fairAll p) h.once

theorem Front.sameEnds_of_leads (h : Front ss) (hr : Leads AsksNone ss p q) : SameEnds p q := by
  refine sameEnds_of_notSkip (hr.chain_of_allowed noEndLaw_perform) (h.fairAll p) fun hskip => ?_
  cases h.plain _ hskip

theorem endsOnce_of_append {ts : List Step} (h : endsOnce (ss ++ ts) = true) :
    endsOnce ss = true := by
  induction ss with
  | nil => rfl
  | cons s ss ih =>
    simp only [List.cons_append, endsOnce, Bool.or_eq_true, Bool.and_eq_true, List.all_append] at h
    rcases h with ⟨hs, h⟩ | ⟨h, -⟩
    · simp [endsOnce, hs, ih h]
    · simp [endsOnce, h]

theorem matchesLast_take (h : AtEnd p) : MatchesLast p p.take := by
  have hcurrent : p.current = p.stream.eof := TokenStream.nth_of_le h
  constructor
  · rw [tree_take, Builder.leaves_add, endsOf_append, hcurrent]
    simp [endsOf, Token.isEof]
  · rw [tree_take, Builder.leaves_add, hcurrent]
    simp

theorem SameEnds.matchesLast (h : SameEnds p q) (hm : Moves p q) (h' : MatchesLast q r) :
    MatchesLast p r := by
  constructor
  · rw [h'.ends, hm.stream]
    exact congrArg (· ++ _) h
  · rw [h'.last, hm.stream]

theorem MatchesLast.finish (h : MatchesLast p q) (hf : Runs [.finish] q r) : MatchesLast p r := by
  obtain rfl := hf.single rfl
  exact ⟨by simpa using h.ends, by simpa using h.last⟩

theorem matchesLast_endOfText (h : Runs [.endOfText] p q) : MatchesLast p q := by
  obtain ⟨p', more, hp, hm⟩ := h.inv
  simp only [Parser.perform] at hp
  split at hp
  · cases hp
    cases hm
    exact matchesLast_take (atEnd_of_isEof ‹_›)
  · obtain ⟨rfl, rfl⟩ := reportThen_ok hp
    obtain ⟨r, hskip, htake⟩ := hm.uncons
    have hsame := (endLaw_of_runs hskip fair_skipRest).spared rfl
    obtain rfl := htake.single rfl
    exact ((sameEnds_report p _).trans hsame).matchesLast
      ((moves_report p _).trans hskip.moves) (matchesLast_take (hskip.atEnd rfl))

/-- A unit does its steps in front of the end of the text, and then matches the end. -/
theorem front_of_unit (hu : entry.isUnit = true) (h : Leads allowed [entry.step] p q) :
    ∃ ss r, Front ss ∧ Leads allowed ss p r ∧ MatchesLast r q := by
  obtain ⟨unit, hstep, hunit⟩ := exists_unitSteps hu
  rw [hstep] at h
  obtain ⟨p', more, hp, hm⟩ := h.inv
  cases hp
  generalize hsteps : unit.expand p.lookahead = steps at hm
  have honce : endsOnce steps = true := hsteps ▸ unit.endsOnce_expand
  have hu := hsteps ▸ hunit p.lookahead
  cases hu with
  | checked ss hplain =>
    obtain ⟨r, hfront, hend⟩ := hm.split
    obtain ⟨r', hend, hfinish⟩ := (hend.mono fun _ _ _ => trivial : Runs _ r q).uncons
    exact ⟨ss, r, ⟨hplain, endsOnce_of_append honce⟩, hfront,
      (matchesLast_endOfText hend).finish hfinish⟩
  | known ss hplain hreaches =>
    obtain ⟨r, hfront, hend⟩ := hm.split
    obtain ⟨r', htake, hfinish⟩ := (hend.mono fun _ _ _ => trivial : Runs _ r q).uncons
    obtain rfl := htake.single rfl
    exact ⟨ss, r, ⟨hplain, endsOnce_of_append honce⟩, hfront,
      (matchesLast_take (hfront.atEnd hreaches)).finish hfinish⟩

/-- Any other call is one plain step. -/
theorem front_of_part (hu : entry.isUnit = false) : Front [entry.step] := by
  cases entry with
  | compilationUnit | triggerUnit | anonymousUnit => cases hu
  | _ => exact ⟨by simp [Entry.step, Step.plain], rfl⟩

/-- The end of the text that a call matches, as a leaf: a unit does. -/
def matchedEnd (p : Parser) (entry : Entry) : List Leaf :=
  if entry.isUnit then [⟨p.stream.eof, false⟩] else []

theorem front_of_entry (h : Leads allowed [entry.step] p q) :
    ∃ ss r, Front ss ∧ Leads allowed ss p r ∧
      endsOf q.tree.leaves = endsOf r.tree.leaves ++ p.matchedEnd entry ∧
      (entry.isUnit = true → q.tree.leaves.getLast? = some ⟨p.stream.eof, false⟩) := by
  cases hu : entry.isUnit with
  | true =>
    obtain ⟨ss, r, hfront, hr, hlast⟩ := front_of_unit hu h
    refine ⟨ss, r, hfront, hr, ?_, fun _ => ?_⟩
    · rw [hlast.ends, matchedEnd, hu, if_pos rfl, hr.moves.stream]
    · rw [hlast.last, hr.moves.stream]
  | false => exact ⟨_, q, front_of_part hu, h, by simp [matchedEnd, hu], nofun⟩

/-- A call skips the end of the text once where it comes to a statement at the end, and not at
all where it does not. -/
theorem ends_of_runs (h : Runs [entry.step] p.fresh q) :
    ∃ skipped, endsOf q.tree.leaves = skipped ++ p.matchedEnd entry ∧
      (AsksAtEnd p entry → skipped = [⟨p.stream.eof, true⟩]) ∧
      (¬ AsksAtEnd p entry → skipped = []) := by
  by_cases ha : AsksAtEnd p entry
  · obtain ⟨ss, r, hfront, hr, hends, -⟩ := front_of_entry h
    have hskips : SkipsEnd p.fresh r := by
      refine (hfront.once_of_runs hr).resolve_left fun hsame => ?_
      have hmem : ⟨p.stream.eof, true⟩ ∈ endsOf q.tree.leaves :=
        List.mem_filter.2 ⟨mem_of_asksAtEnd h ha, by simp [Token.isEof]⟩
      rw [hends, hsame] at hmem
      rcases List.mem_append.1 hmem with hmem | hmem
      · cases hmem
      · unfold matchedEnd at hmem
        split at hmem <;> simp at hmem
    exact ⟨_, hends, fun _ => hskips.2, fun hn => absurd ha hn⟩
  · obtain ⟨ss, r, hfront, hr, hends, -⟩ := front_of_entry (asksNone_of_not_asksAtEnd h ha)
    exact ⟨_, hends, fun hn => absurd hn ha, fun _ => hfront.sameEnds_of_leads hr⟩

theorem losslessCall_of_parse {tree : Tree} (h : p.parse entry = (q, .ok tree)) :
    LosslessCall p entry q tree := by
  rcases run_ends p entry with ⟨r, hfinished⟩ | ⟨r, e, hthrown, -⟩
  · obtain ⟨tree', hc, -⟩ := exists_call_of_finished hfinished
    rw [hc.returns] at h
    cases h
    exact hc
  · have herror := parse_of_thrown (congrArg Prod.snd hthrown)
    rw [h] at herror
    cases herror

/-- The skipped leaves are tokens in front of the end, and the ends that are skipped. -/
theorem countP_isSkipped (ls : List Leaf) :
    ls.countP Leaf.isSkipped = ls.countP (fun l => l.isSkipped && !l.token.isEof) +
      (endsOf ls).countP Leaf.isSkipped := by
  rw [endsOf, List.countP_filter, Nat.add_comm]
  induction ls with
  | nil => rfl
  | cons l ls ih =>
    simp only [List.countP_cons, ih]
    cases l.isSkipped <;> cases l.token.isEof <;> simp <;> omega

/-- The end of the text among the leaves of a tree. A unit matches it once, as its last leaf,
and no other call does. A call that comes to a statement at the end skips it once, in front of
that; any other call never does. So the skipped leaves are tokens of the text, but for the
end where a statement is missing there. -/
theorem end_among_leaves {tree : Tree} (h : p.parse entry = (q, .ok tree)) :
    ∃ skipped, endsOf tree.leaves = skipped ++ p.matchedEnd entry ∧
      (AsksAtEnd p entry → skipped = [⟨p.stream.eof, true⟩]) ∧
      (¬ AsksAtEnd p entry → skipped = []) ∧
      (entry.isUnit = true → tree.leaves.getLast? = some ⟨p.stream.eof, false⟩) ∧
      tokensOf tree.leaves = p.stream.between p.position q.position ∧
      tree.errorCount =
        tree.leaves.countP (fun l => l.isSkipped && !l.token.isEof) + skipped.length := by
  have hc := losslessCall_of_parse h
  obtain ⟨r, hrun, htree, -⟩ := hc.run_eq
  have hruns : Runs [entry.step] p.fresh r := leads_of_runWithin hrun
  have hleaves : r.tree.leaves = tree.leaves := by rw [htree, Builder.leaves_single]
  obtain ⟨skipped, hends, hasks, hnone⟩ := ends_of_runs hruns
  obtain ⟨_, _, -, -, -, hlast⟩ := front_of_entry hruns
  rw [hleaves] at hends hlast
  refine ⟨skipped, hends, hasks, hnone, hlast, hc.leaves, ?_⟩
  rw [Tree.errorCount, countP_isSkipped, hends, List.countP_append]
  have hmatched : (p.matchedEnd entry).countP Leaf.isSkipped = 0 := by
    unfold matchedEnd
    split <;> rfl
  have hskipped : skipped.countP Leaf.isSkipped = skipped.length := by
    by_cases ha : AsksAtEnd p entry
    · rw [hasks ha]
      rfl
    · rw [hnone ha]
      rfl
  omega

/-- A branch is missing at the end of the text. -/
theorem end_among_leaves_missingBranch :
    ∃ s q tree, TokenStream.ofString .folded "if (a)" = .ok s ∧
      (ofStream s).parse .anonymousUnit = (q, .ok tree) ∧
      AsksAtEnd (ofStream s) .anonymousUnit ∧
      endsOf tree.leaves = [⟨s.eof, true⟩, ⟨s.eof, false⟩] ∧ tree.errorCount = 1 := by
  have hread : ∃ s, TokenStream.ofString .folded "if (a)" = .ok s ∧
      ((ofStream s).parse .anonymousUnit).2.toOption.map
        (fun tree => ((endsOf tree.leaves).length, tree.errorCount)) = some (2, 1) :=
    TokenStream.exists_ofString (by decide +kernel)
  obtain ⟨s, hs, hcounts⟩ := hread
  obtain ⟨q, tree, hc, -⟩ := exists_call (p := ofStream s) rfl .anonymousUnit
  rw [hc.returns] at hcounts
  obtain ⟨hlength, herrors⟩ := Prod.mk.inj (Option.some.inj hcounts)
  obtain ⟨skipped, hends, hasks, hnone, -⟩ := end_among_leaves hc.returns
  have ha : AsksAtEnd (ofStream s) .anonymousUnit := Classical.not_not.1 fun ha => by
    rw [hends, hnone ha] at hlength
    cases hlength
  rw [hasks ha] at hends
  exact ⟨s, q, tree, hs, hc.returns, ha, hends, herrors⟩

/-- In the tree of a unit, the end of the text can be skipped, and then it stands there
twice. No token of the text is skipped, and one is counted. -/
theorem end_skipped_at_missing_branch :
    ∃ s q tree, TokenStream.ofString .folded "if (a)" = .ok s ∧
      (ofStream s).parse .anonymousUnit = (q, .ok tree) ∧
      ¬ (∀ l ∈ tree.leaves, l.isSkipped = true → l.token.isEof = false) ∧
      (endsOf tree.leaves).length = 2 ∧
      tree.errorCount ≠ tree.leaves.countP fun l => l.isSkipped && !l.token.isEof := by
  have hread : ∃ s, TokenStream.ofString .folded "if (a)" = .ok s ∧
      ((ofStream s).parse .anonymousUnit).2.toOption.map (fun tree =>
        (tree.leaves.any (fun l => l.isSkipped && l.token.isEof), (endsOf tree.leaves).length,
          tree.errorCount, tree.leaves.countP fun l => l.isSkipped && !l.token.isEof)) =
      some (true, 2, 1, 0) :=
    TokenStream.exists_ofString (by decide +kernel)
  obtain ⟨s, hs, hread⟩ := hread
  obtain ⟨q, tree, hc, -⟩ := exists_call (p := ofStream s) rfl .anonymousUnit
  rw [hc.returns] at hread
  obtain ⟨hany, hrest⟩ := Prod.mk.inj (Option.some.inj hread)
  obtain ⟨hlength, hrest⟩ := Prod.mk.inj hrest
  obtain ⟨herrors, hskipped⟩ := Prod.mk.inj hrest
  refine ⟨s, q, tree, hs, hc.returns, fun h => ?_, hlength, ?_⟩
  · obtain ⟨l, hl, hleaf⟩ := List.any_eq_true.1 hany
    obtain ⟨hskip, hend⟩ := Bool.and_eq_true_iff.1 hleaf
    rw [h l hl hskip] at hend
    cases hend
  · rw [herrors, hskipped]
    exact Nat.one_ne_zero

end Calls

end Parser

end ApexSyntax
