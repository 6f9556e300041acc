-- What is reported where a unit should end. A unit that loses its last brace costs one
-- report, at the end of the text, and so do any tokens behind the brace, at the first of
-- them; nothing else in the unit is read in another way.
import ApexSyntax.Proofs.Replay.LastBrace

namespace ApexSyntax

namespace TokenStream

variable {t : TokenStream}

/-- The stream without its last token. -/
def dropLast (t : TokenStream) : TokenStream :=
  ofTokens t.tokens.pop t.eof fun u hu => by
    rw [Array.mem_def, Array.toList_pop] at hu
    exact t.kind_tokens u (Array.mem_def.2 (List.dropLast_subset _ hu))

theorem visible_dropLast {u : Token} (h : t.tokens.back? = some u) (hu : u.isHidden = false) :
    t.dropLast.visible = t.visible.pop := by
  obtain ⟨ys, hys⟩ := Array.back?_eq_some_iff.1 h
  have htokens : t.dropLast.tokens = t.tokens.pop := rfl
  rw [t.dropLast.visible_eq, t.visible_eq, htokens, hys, Array.pop_push]
  simp [hu]

end TokenStream

namespace Parser

/-! ## Calls with one error -/

/-- The call raises one error and no other. It returns a tree unless a listener throws. -/
structure ReportsOnce (q : Parser) (entry : Entry) (e : SyntaxError) (tree : Tree) : Prop where
  errorCount : (q.parse entry).1.errorCount = q.errorCount + 1
  listeners : (q.parse entry).1.listeners = Listener.hearAll e q.listeners
  result : (q.parse entry).2 = if Listener.stopsAt q.listeners then .error e else .ok tree

section Calls

variable {allowed : Parser → Step → Prop} {p q b c d : Parser} {s t : TokenStream}
  {entry : Entry} {st : Step} {more ts : List Step} {message : String} {x : Token}
  {xs : List Token}

/-- A call that comes to a report without another one before it, and reports nothing more
behind it. -/
theorem reportsOnce_of_comes (h : Comes allowed [entry.step] q.fresh (st :: ts) c)
    (hc : Quietly q.fresh c) (hp : c.perform st = c.reportThen message more)
    (hr : Runs (more ++ ts) (c.report message).1 d) (hd : Quietly (c.report message).1 d) :
    ReportsOnce q entry (c.errorHere message) d.tree.root := by
  have hrec : c.recovering = false := hc.recovering rfl
  have hlisten : c.listeners = q.listeners := hc.listeners
  have hcount : c.errorCount = q.errorCount := hc.errorCount
  have he : (c.report message).1.errorCount = q.errorCount + 1 := by
    rw [errorCount_report, hrec, hcount]
    rfl
  have hl : (c.report message).1.listeners =
      Listener.hearAll (c.errorHere message) q.listeners := by
    simp only [report, hrec, hlisten, Bool.false_eq_true, if_false]
  by_cases hstop : Listener.stopsAt q.listeners = true
  · have hthrow : c.perform st = ((c.report message).1, .error (c.errorHere message)) := by
      simp only [hp, reportThen, report, hrec, hlisten, hstop, Bool.false_eq_true, if_false,
        if_true]
    have hrun := run_of_comes_error h hthrow
    refine ⟨?_, ?_, ?_⟩
    · rw [errorCount_parse, hrun, he]
    · rw [listeners_parse, hrun, hl]
    · rw [parse_of_thrown (by rw [hrun]), if_pos hstop]
  · have hgoes : c.perform st = ((c.report message).1, .ok more) := by
      simp only [hp, reportThen, report, hrec, hlisten, hstop, Bool.false_eq_true, if_false]
    obtain ⟨c', h1, h2⟩ := hr.split
    have hrun := run_of_comes h (.perform trivial hgoes h1 h2)
    refine ⟨?_, ?_, ?_⟩
    · rw [errorCount_parse, hrun, hd.errorCount, he]
    · rw [listeners_parse, hrun, hd.listeners, hl]
    · rw [parse_of_run hrun (by simp), if_neg hstop]

/-- All tokens up to the end are skipped. -/
theorem exists_runs_skipRest (p : Parser) : ∃ q, Runs [.skipRest] p q ∧ AtEnd q ∧ Quietly p q ∧
    q.tree = p.tree.addAll ((p.stream.visible.toList.drop p.position).map .skipped) := by
  generalize hn : p.stream.visible.size - p.position = n
  induction n generalizing p with
  | zero =>
    have hend : p.stream.visible.size ≤ p.position := by omega
    have hperf : p.perform .skipRest = (p, .ok []) := by
      rw [perform, if_pos ((isEof_current_iff p).2 hend)]
    refine ⟨p, runs_one hperf, hend, .refl p, ?_⟩
    rw [List.drop_eq_nil_of_le (by simpa using hend)]
    rfl
  | succ n ih =>
    have hlt : p.position < p.stream.visible.size := by omega
    have heof : ¬ p.current.isEof = true := by rw [isEof_current_iff]; omega
    have hpos : p.skip.position = p.position + 1 := behind_of_lt hlt
    have hperf : p.perform .skipRest = (p.skip, .ok [.skipRest]) := by
      rw [perform, if_neg heof]
    obtain ⟨q, hq, hend, hquiet, htree⟩ := ih p.skip (by rw [hpos, stream_skip]; omega)
    refine ⟨q, .perform trivial hperf hq (.done q), hend,
      (Quietly.mk rfl rfl rfl id : Quietly p p.skip).trans hquiet, ?_⟩
    have hdrop : p.stream.visible.toList.drop p.position =
        p.current :: p.stream.visible.toList.drop (p.position + 1) := by
      rw [List.drop_eq_getElem_cons (by simpa using hlt)]
      simp [current_eq, TokenStream.nth, Array.getD, hlt]
    rw [htree, hpos, stream_skip, hdrop]
    rfl

theorem quoted_eof (s : TokenStream) : s.eof.quoted = "'<EOF>'" := by
  rw [s.eof_eq]
  show "'" ++ Text.oneLine "<EOF>" ++ "'" = "'<EOF>'"
  decide +kernel

theorem perform_brace_of_eof (h : AtEnd c) :
    c.perform (.expect (.mark .rBrace)) = c.reportThen "missing '\x7d' at '<EOF>'" [] := by
  have hcur : c.current = c.stream.eof := TokenStream.nth_of_le h
  have heof : c.current.isEof = true := (isEof_current_iff c).2 h
  have hacc : (Expected.mark .rBrace).accepts c.current = false := by
    simp [Expected.accepts, Expected.mark, hcur]
  have hmessage : absentMessage c.current (.mark .rBrace) = "missing '\x7d' at '<EOF>'" := by
    rw [absentMessage, if_pos, missingMessage, hcur, quoted_eof]
    · rfl
    · simp [hcur, Kind.resumes]
  rw [perform, expect]
  simp only [hacc, heof, hmessage, Bool.false_eq_true, if_false, Bool.not_true, Bool.false_and]

/-- Where the end of the text is missing a brace, the nodes are closed and the end is matched. -/
theorem exists_runs_to_end (n : Nat) (h : AtEnd c) : ∃ d,
    Runs (List.replicate n Step.finish ++ [Step.endOfText, .finish]) c d ∧ Quietly c d ∧
      d.tree.leaves = c.tree.leaves ++ [⟨c.stream.eof, false⟩] := by
  have hend : AtEnd (c.build (·.finishMany n)) := h
  have hcur : (c.build (·.finishMany n)).current = c.stream.eof := TokenStream.nth_of_le hend
  have hperf : (c.build (·.finishMany n)).perform .endOfText =
      ((c.build (·.finishMany n)).take, .ok []) := by
    rw [perform, if_pos ((isEof_current_iff _).2 hend)]
  refine ⟨(c.build (·.finishMany n)).behindUnit, ?_, ?_, ?_⟩
  · exact .append (runs_finishes n c) (.cons (runs_one hperf) (runs_one rfl))
  · exact (Quietly.build _ _).trans ((Quietly.take _).trans (.build _ _))
  · rw [behindUnit, tree_build, Builder.leaves_finish, tree_take, Builder.leaves_add, hcur,
      tree_build, Builder.leaves_finishMany, Tree.leaves_token]

theorem AtBrace.size_of_pop {body : List Step} {n : Nat} {r : Rule} {us : List Tree}
    (h : AtBrace p r body n b us) (hs : s.visible = p.stream.visible.pop) :
    s.visible.size = b.position := by
  rw [hs, Array.size_pop, h.last]
  rfl

theorem AtBrace.meets_pop {body : List Step} {n : Nat} {r : Rule} {us : List Tree}
    (h : AtBrace p r body n b us) (hs : s.visible = p.stream.visible.pop) :
    p.stream.Meets s b.position := by
  refine ⟨fun i hi => ?_, h.last, h.brace, .inr ?_⟩
  · have hlt : i < p.stream.visible.size - 1 := by rw [h.last]; exact hi
    have hlt' : i < p.stream.visible.size := by omega
    simp [TokenStream.nth, hs, Array.getD, hlt, hlt']
  · exact (s.kind_nth_eq_eof_iff _).2 (Nat.le_of_eq (h.size_of_pop hs))

/-- A unit that loses its last brace costs one report, at the end of the text. Where a type
or a trigger is parsed without an error, the last token is a closing brace; without it the
parser reports that the brace is missing there, and nothing else, and skips no token. -/
theorem missing_brace_reported_once (hu : entry = .compilationUnit ∨ entry = .triggerUnit)
    (ht : t.Spelled) (hs : s.visible = t.visible.pop) (hp : p.stream = t)
    (hq : q.stream = s ∧ q.position = p.position)
    (he : (p.parse entry).1.errorCount = p.errorCount) :
    (∃ brace, brace.kind = .mark .rBrace ∧ t.visible = s.visible.push brace) ∧
    ∃ tree, tree.errorCount = 0 ∧
      ReportsOnce q entry ⟨s.eof.line, s.eof.column, "missing '\x7d' at '<EOF>'"⟩ tree := by
  obtain ⟨r, body, hu⟩ := exists_bracedUnit hu
  subst hp
  obtain ⟨n, b, ts, hb, _, hclean⟩ := exists_atBrace hu ht he
  have hmeets := hb.meets_pop hs
  have hsize := hb.size_of_pop hs
  constructor
  · have hne : p.stream.visible.size ≠ 0 := by rw [hb.last]; simp
    obtain ⟨ys, brace, hys⟩ := Array.eq_push_of_size_ne_zero hne
    have hbrace := hb.brace
    rw [hys, Array.pop_push] at hs
    refine ⟨brace, ?_, by rw [hs, hys]⟩
    rwa [TokenStream.nth, hys, ← hsize, hs, Array.getD_eq_getD_getElem?, Array.getElem?_push_size]
      at hbrace
  · obtain ⟨c, hc, hstream, hpos, htree, hquiet⟩ := hb.replay hu hmeets hq.1 hq.2
    have hend : AtEnd c := Nat.le_of_eq (by rw [hstream, hpos, hsize])
    have hcur : c.current = s.eof := by
      rw [current_eq, hstream]
      exact TokenStream.nth_of_le (Nat.le_of_eq (by rw [hpos, hsize]))
    have hreport := perform_brace_of_eof hend
    have hend' : AtEnd (c.report "missing '\x7d' at '<EOF>'").1 := by
      rw [AtEnd, stream_report, position_report]
      exact hend
    obtain ⟨d, hd, hquiet', hleaves⟩ := exists_runs_to_end n hend'
    have honce := reportsOnce_of_comes hc hquiet hreport hd hquiet'
    rw [errorHere, hcur] at honce
    refine ⟨d.tree.root, List.countP_eq_zero.2 fun l hl => ?_, honce⟩
    have hmem := Builder.mem_leaves_of_root hl
    rw [hleaves, tree_report, htree, List.mem_append, List.mem_singleton] at hmem
    rcases hmem with hmem | rfl
    · simp [hclean l (hb.mem_leaves hmem)]
    · simp

theorem missing_brace_reported_once_class : ∃ t,
    TokenStream.ofString .folded "class A \x7b void f() \x7b if (b) g(); \x7d \x7d" = .ok t ∧
      t.dropLast.visible = t.visible.pop ∧
      ((ofStream t).parse .compilationUnit).1.errorCount = 0 ∧
      (∃ brace, brace.kind = .mark .rBrace ∧ t.visible = t.dropLast.visible.push brace) ∧
      ∃ tree, tree.errorCount = 0 ∧ ReportsOnce (ofStream t.dropLast) .compilationUnit
        ⟨t.dropLast.eof.line, t.dropLast.eof.column, "missing '\x7d' at '<EOF>'"⟩ tree := by
  obtain ⟨t, ht⟩ :=
    TokenStream.ofString_ok .folded "class A \x7b void f() \x7b if (b) g(); \x7d \x7d"
  have hboth : (TokenStream.ofString .folded
      "class A \x7b void f() \x7b if (b) g(); \x7d \x7d").toOption.map (fun t =>
        (t.tokens.back?.map Token.isHidden, ((ofStream t).parse .compilationUnit).1.errorCount)) =
        some (some false, 0) := by
    decide +kernel
  rw [ht] at hboth
  obtain ⟨hback, he⟩ := Prod.mk.inj (Option.some.inj hboth)
  obtain ⟨u, hu, hhidden⟩ := Option.map_eq_some_iff.1 hback
  have hpop := TokenStream.visible_dropLast hu hhidden
  exact ⟨t, ht, hpop, he, missing_brace_reported_once (p := ofStream t)
    (q := ofStream t.dropLast) (.inl rfl) (TokenStream.spelled_ofString ht) hpop rfl
    ⟨rfl, rfl⟩ he⟩

section Append

variable {body : List Step} {n : Nat} {r : Rule} {us : List Tree} {i : Nat}

theorem nth_of_append (hs : s.visible = t.visible ++ xs.toArray) (hi : i < t.visible.size) :
    s.nth i = t.nth i := by
  simp [TokenStream.nth, hs, Array.getD, hi, Nat.lt_add_right]

theorem AtBrace.meets_append (h : AtBrace p r body n b us)
    (hs : s.visible = p.stream.visible ++ xs.toArray) : p.stream.Meets s b.position := by
  have hlast := h.last
  refine ⟨fun i hi => nth_of_append hs (by omega), hlast, h.brace, .inl ?_⟩
  rw [nth_of_append hs (by omega)]
  exact h.brace

theorem extraneousMessage_eof (t : Token) : extraneousMessage t Kind.eof.display =
    "extraneous input " ++ t.quoted ++ " expecting <EOF>" :=
  String.append_assoc.trans (congrArg ("extraneous input " ++ t.quoted ++ ·) (by decide))

theorem perform_endOfText_of_ne (h : c.current.kind ≠ .eof) : c.perform .endOfText =
    c.reportThen ("extraneous input " ++ c.current.quoted ++ " expecting <EOF>")
      [.skipRest, .take 1] := by
  have heof : ¬ c.current.isEof = true := by simpa [Token.isEof] using h
  rw [perform, if_neg heof, extraneousMessage_eof]

theorem filter_isSkipped (hts : ∀ l ∈ leavesOf us, l.isSkipped = false) :
    (Tree.node r (us ++ xs.map .skipped ++ [Tree.token x])).leaves.filter Leaf.isSkipped =
      xs.map (⟨·, true⟩) := by
  have hnone : (leavesOf us).filter Leaf.isSkipped = [] := by
    rw [List.filter_eq_nil_iff]
    intro l hl
    simp [hts l hl]
  have hall : leavesOf (xs.map .skipped) = xs.map (⟨·, true⟩) := by
    induction xs with
    | nil => rfl
    | cons x xs ih => exact congrArg (Leaf.mk x true :: ·) ih
  rw [Tree.leaves_node, ← leavesOf, leavesOf_append, leavesOf_append, List.filter_append,
    List.filter_append, hnone, hall]
  simp

/-- Where the end of the text should be, the rest of the tokens is skipped. -/
theorem exists_runs_over_rest (c : Parser)
    (h : c.tree = (Builder.empty.start r).addAll us) : ∃ d,
    Runs [.skipRest, .take 1, .finish] c d ∧ Quietly c d ∧
      d.tree.root = .node r (us ++ (c.stream.visible.toList.drop c.position).map .skipped ++
        [Tree.token c.stream.eof]) := by
  obtain ⟨c', hskip, hend, hquiet, htree⟩ := exists_runs_skipRest c
  have htake : Runs [.take 1, .finish] c' c'.behindUnit :=
    .cons (runs_one rfl) (runs_one rfl)
  refine ⟨c'.behindUnit, .cons hskip htake,
    hquiet.trans ((Quietly.take _).trans (.build _ _)), ?_⟩
  rw [h, ← Builder.addAll_append] at htree
  rw [root_behindUnit hend htree, hskip.moves.stream]

end Append

/-- Tokens behind a unit cost one report, at the first of them. Where a type or a trigger is
parsed without an error, more tokens behind it leave its tree as it was: they are skipped,
all of them and nothing else, and the parser reports that the first one is extraneous. -/
theorem trailing_tokens_reported_once (hu : entry = .compilationUnit ∨ entry = .triggerUnit)
    (ht : t.Spelled) (hs : s.visible = t.visible ++ (x :: xs).toArray) (hp : p.stream = t)
    (hq : q.stream = s ∧ q.position = p.position)
    (he : (p.parse entry).1.errorCount = p.errorCount) :
    ∃ r ts, (p.parse entry).2 = .ok (.node r (ts ++ [.token t.eof])) ∧
      ReportsOnce q entry
        ⟨x.line, x.column, "extraneous input " ++ x.quoted ++ " expecting <EOF>"⟩
        (.node r (ts ++ (x :: xs).map .skipped ++ [.token s.eof])) ∧
      (Tree.node r (ts ++ (x :: xs).map .skipped ++ [.token s.eof])).leaves.filter
        Leaf.isSkipped = (x :: xs).map (⟨·, true⟩) := by
  obtain ⟨r, body, hu⟩ := exists_bracedUnit hu
  subst hp
  obtain ⟨n, b, ts, hb, hresult, hclean⟩ := exists_atBrace hu ht he
  have hlast := hb.last
  have hbrace : s.nth b.position = b.current := by
    have hbstream : b.stream = p.stream := hb.comes.comes.moves.stream
    rw [current_eq, hbstream, nth_of_append hs (by omega)]
  obtain ⟨c, hc, rfl, hpos, htree, hquiet⟩ :=
    hb.replay_behind hu (hb.meets_append hs) hbrace hq.1 hq.2
  have hdrop : c.stream.visible.toList.drop c.position = x :: xs := by
    rw [hpos, ← hlast, hs]
    simp
  have hcur : c.current = x := by
    rw [current_eq, hpos, ← hlast, TokenStream.nth, hs]
    simp [Array.getD]
  have hx : c.current.kind ≠ .eof := (kind_ne_eof_iff c).2 (by
    rw [hpos, ← hlast, hs]
    simp)
  have hreport := perform_endOfText_of_ne hx
  obtain ⟨d, hd, hdquiet, hroot⟩ := exists_runs_over_rest
    (c.report ("extraneous input " ++ c.current.quoted ++ " expecting <EOF>")).1
    ((tree_report ..).trans htree)
  have honce := reportsOnce_of_comes hc hquiet hreport hd hdquiet
  rw [hroot, stream_report, position_report, hdrop, errorHere, hcur] at honce
  exact ⟨r, ts, hresult, honce, filter_isSkipped hclean⟩

theorem trailing_tokens_reported_once_class : ∃ t b,
    TokenStream.ofString .folded "class A \x7b void f() \x7b if (b) g(); \x7d \x7d" = .ok t ∧
      TokenStream.ofString .folded "else \x7d class" = .ok b ∧
      ((ofStream t).parse .compilationUnit).1.errorCount = 0 ∧
      ∃ x xs, b.visible.map (Token.behind t.tokens.size) = (x :: xs).toArray ∧ xs.length = 2 ∧
      ∃ r ts, ((ofStream t).parse .compilationUnit).2 = .ok (.node r (ts ++ [.token t.eof])) ∧
        ReportsOnce (ofStream (t.append b)) .compilationUnit
          ⟨x.line, x.column, "extraneous input " ++ x.quoted ++ " expecting <EOF>"⟩
          (.node r (ts ++ (x :: xs).map .skipped ++ [.token (t.append b).eof])) ∧
        (Tree.node r (ts ++ (x :: xs).map .skipped ++ [.token (t.append b).eof])).leaves.filter
          Leaf.isSkipped = (x :: xs).map (⟨·, true⟩) := by
  obtain ⟨t, ht⟩ :=
    TokenStream.ofString_ok .folded "class A \x7b void f() \x7b if (b) g(); \x7d \x7d"
  obtain ⟨b, hb⟩ := TokenStream.ofString_ok .folded "else \x7d class"
  have hte : (TokenStream.ofString .folded
      "class A \x7b void f() \x7b if (b) g(); \x7d \x7d").toOption.map (fun t =>
        ((ofStream t).parse .compilationUnit).1.errorCount) = some 0 := by
    decide +kernel
  have hsize : (TokenStream.ofString .folded "else \x7d class").toOption.map
      (fun b => b.visible.size) = some 3 := by
    decide +kernel
  rw [ht] at hte
  rw [hb] at hsize
  have he := Option.some.inj hte
  have hlen : (b.visible.map (Token.behind t.tokens.size)).toList.length = 3 := by
    simpa using Option.some.inj hsize
  obtain ⟨x, xs, hxs⟩ := List.exists_cons_of_length_eq_add_one hlen
  have harray : b.visible.map (Token.behind t.tokens.size) = (x :: xs).toArray := by
    rw [← hxs]
  rw [hxs] at hlen
  exact ⟨t, b, ht, hb, he, x, xs, harray, Nat.succ.inj hlen,
    trailing_tokens_reported_once (p := ofStream t) (q := ofStream (t.append b)) (.inl rfl)
      (TokenStream.spelled_ofString ht) (harray ▸ t.visible_append b) rfl ⟨rfl, rfl⟩ he⟩

end Calls

end Parser

end ApexSyntax
