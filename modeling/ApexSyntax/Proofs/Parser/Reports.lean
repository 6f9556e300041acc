-- Errors come out in the order of their places. A call reports each error at a
-- later token than the one before, and has matched a token in between.
import ApexSyntax.Proofs.Parser.Ending
import ApexSyntax.Proofs.Parser.Silence

namespace ApexSyntax

namespace Parser

/-! ## Tokens that are passed -/

/-- The number of tokens that are passed. The end never is. -/
def passed (p : Parser) : Nat := min p.position p.stream.visible.size

section Passed

variable {p q : Parser}

theorem passed_eq (hs : q.stream = p.stream) (hp : q.position = p.position) :
    q.passed = p.passed := by
  rw [passed, passed, hs, hp]

theorem passed_le (hm : Moves p q) : p.passed ≤ q.passed := by
  have := hm.position_le
  rw [passed, passed, hm.stream]
  omega

theorem passed_lt (hm : Moves p q) (hv : p.lookahead.kind 0 ≠ .eof)
    (hne : q.position ≠ p.position) : p.passed < q.passed := by
  have := hm.position_le
  rw [kind_ne_eof_iff] at hv
  rw [passed, passed, hm.stream]
  omega

/-- The current token is the first that is not passed. -/
theorem take_passed_succ (p : Parser) :
    p.stream.seen.take (p.passed + 1) = p.stream.seen.take p.passed ++ [p.current] := by
  have hlt : p.passed < p.stream.seen.length := by
    rw [TokenStream.length_seen, TokenStream.visibleCount, passed]
    omega
  have hc : p.current = p.stream.nth p.passed := by
    by_cases h : p.position ≤ p.stream.visible.size
    · rw [passed, Nat.min_eq_left h, current_eq]
    · rw [passed, Nat.min_eq_right (by omega), current_eq, TokenStream.nth_of_le (by omega),
        TokenStream.nth_of_le (Nat.le_refl _)]
  rw [hc, ← TokenStream.getElem_seen hlt, List.take_append_getElem]

end Passed

/-! ## Reports in order -/

/-- Errors were reported at tokens in their order, at most once at each: at some
that are passed, and at the current one only when nothing more can be reported
there, since the parser recovers or only closes nodes. -/
def InOrder (h : List Deed) (ss : List Step) (q : Parser) : Prop :=
  ∃ n, (h.filterMap Deed.reported?).Sublist (q.stream.seen.take n) ∧
    (n ≤ q.passed ∨ n = q.passed + 1 ∧ (q.recovering = true ∨ ∀ t ∈ ss, t = .finish))

section InOrder

variable {p q : Parser} {s : Step} {rest ss ts : List Step} {h h' : List Deed}

/-- Reports stay in order when none is added. -/
theorem InOrder.keep (hi : InOrder h ss p) (hm : Moves p q)
    (hh : h'.filterMap Deed.reported? = h.filterMap Deed.reported?)
    (hstill : q.passed = p.passed → (p.recovering = true ∨ ∀ t ∈ ss, t = .finish) →
      q.recovering = true ∨ ∀ t ∈ ts, t = .finish) : InOrder h' ts q := by
  obtain ⟨n, hsub, hn⟩ := hi
  refine ⟨n, by rwa [hh, hm.stream], ?_⟩
  rcases Nat.eq_or_lt_of_le (passed_le hm) with heq | hlt
  · rw [← heq]
    exact hn.imp_right fun ⟨hn, hr⟩ => ⟨hn, hstill heq.symm hr⟩
  · exact .inl (by omega)

/-- An error is reported only at a token where none was reported before. -/
theorem InOrder.report (hi : InOrder h (s :: rest) p) (hr : p.recovering = false)
    (hs : s ≠ .finish) (message : String) :
    InOrder (h ++ [Deed.reports p.current]) ss (p.report message).1 := by
  obtain ⟨n, hsub, hn⟩ := hi
  have hle : n ≤ p.passed := by
    rcases hn with hle | ⟨_, hrec | hall⟩
    · exact hle
    · rw [hr] at hrec
      cases hrec
    · exact absurd (hall s List.mem_cons_self) hs
  refine ⟨p.passed + 1, ?_, .inr ⟨?_, .inl (recovering_report p message)⟩⟩
  · rw [stream_report, take_passed_succ, List.filterMap_append]
    exact (hsub.trans (List.take_sublist_take_left hle)).append (.refl _)
  · rw [passed_eq (stream_report p message) (position_report p message)]

/-- Every step keeps the reports in order. -/
theorem inOrder_step (hend : EndsCall s rest p) (hi : InOrder h (s :: rest) p) :
    InOrder (h ++ deeds p (p.perform s).1) (p.remaining s rest) (p.perform s).1 := by
  have hm := moves_step p s
  have hnone : (deeds p (p.perform s).1).filterMap Deed.reported? = [] →
      (h ++ deeds p (p.perform s).1).filterMap Deed.reported? = h.filterMap Deed.reported? := by
    intro hd
    rw [List.filterMap_append, hd, List.append_nil]
  cases effect_perform p s with
  | quiet hr hpos he _ hl =>
    refine hi.keep hm (hnone (by rw [deeds_eq_nil he hl]; rfl)) fun _ hno => ?_
    rcases hno with hrec | hall
    · exact .inl (hr.trans hrec)
    · -- Only nodes are closed, so the rest is what was left before.
      obtain rfl := hall s List.mem_cons_self
      exact .inr fun t ht => hall t (List.mem_cons_of_mem _ ht)
  | reports message hr heq =>
    rw [heq, deeds_report hr]
    refine hi.report hr ?_ message
    rintro rfl
    have hrec := congrArg Parser.recovering heq
    rw [recovering_report] at hrec
    exact absurd (hr.symm.trans hrec) Bool.false_ne_true
  | takes n htakes heq =>
    obtain ⟨ls, hd, _⟩ := exists_deeds_takeMany p (n + 1)
    rw [← heq] at hd
    refine hi.keep hm (hnone (by rw [hd, Deed.filterMap_reported_reads])) fun hpassed _ => ?_
    by_cases he : p.current.isEof = true
    · exact .inr (hend (htakes he))
    · have hv : p.lookahead.kind 0 ≠ .eof := by simpa [Token.isEof, kind_lookahead] using he
      have hlt := passed_lt hm hv (by rw [heq]; exact position_takeMany_ne hv n)
      omega
  | skips hskip heq =>
    refine hi.keep hm (hnone (by rw [heq, deeds_skip]; rfl)) fun _ hno => ?_
    rcases hno with hrec | hall
    · exact .inl (by rw [heq, recovering_skip, hrec])
    · obtain rfl := hall s List.mem_cons_self
      cases hskip

/-- A call reports at tokens that the parser sees, in their order and at most
once at each. -/
theorem Reaches.reported_sublist {entry : Entry}
    (hr : Reaches [entry.step] p.fresh h ss q) :
    (h.filterMap Deed.reported?).Sublist p.stream.seen := by
  obtain ⟨n, hsub, _⟩ := hr.invariant InOrder (fun _ _ _ _ => inOrder_step)
    (always_endsCall p entry) ⟨0, .refl _, .inl (Nat.zero_le _)⟩
  rw [hr.moves.stream] at hsub
  exact hsub.trans (List.take_sublist _ _)

end InOrder

/-! ## Errors of a call -/

/-- The errors of a call: its reports, as its listeners hear of them. -/
structure Raises (p : Parser) (entry : Entry) (h : List Deed) (es : List SyntaxError) : Prop where
  reaches : Reaches [entry.step] p.fresh h [] (p.run entry).1
  places : es.map SyntaxError.place = (h.filterMap Deed.reported?).map Token.place
  heard : (p.parse entry).1.listeners = Listener.hearEach es p.listeners
  counted : (p.parse entry).1.errorCount = p.errorCount + es.length

theorem exists_raises (p : Parser) (entry : Entry) : ∃ h es, Raises p entry h es := by
  obtain ⟨h, hr⟩ := exists_reaches_run p entry
  obtain ⟨es, hheard, hcounted, hplaces⟩ := hr.heard
  refine ⟨h, es, hr, hplaces, ?_, ?_⟩
  · rw [listeners_parse, hheard]
    rfl
  · rw [errorCount_parse, hcounted]
    rfl

/-- The errors of a call come out in the order of their places, never two at one
place: each stands at a token that the parser sees, the end among them, and
behind the error before. Between two of them a token was matched, and there are
at most as many as tokens. A collector keeps just these errors. -/
theorem errors_sorted {casing : Text.Casing} {text : String} {p : Parser}
    (hs : TokenStream.ofString casing text = .ok p.stream) (entry : Entry) :
    ∃ h es, Raises p entry h es ∧
      (Listener.stopsAt p.listeners = false → ∀ (i : Nat) path echo kept,
        p.listeners[i]? = some (Listener.collecting path echo kept) →
        (p.parse entry).1.listeners[i]? =
          some (Listener.collecting path echo
            (kept ++ (es.map (Diagnostic.ofError path)).toArray))) ∧
      (∀ e ∈ es, ∃ t ∈ p.stream.seen, e.place = t.place) ∧
      es.Pairwise (fun e f => e.place < f.place) ∧
      (∀ before t between u after,
        h = before ++ .reports t :: (between ++ .reports u :: after) →
        ∃ d ∈ between, d.isMatch = true) ∧
      es.length ≤ p.stream.visibleCount := by
  obtain ⟨h, es, hraises⟩ := exists_raises p entry
  have hsub := hraises.reaches.reported_sublist
  refine ⟨h, es, hraises, ?_, ?_, ?_, ?_, ?_⟩
  · intro hl i path echo kept hi
    rw [hraises.heard]
    exact Listener.kept_hearEach hl hi es
  · intro e he
    have hmem := List.mem_map_of_mem (f := SyntaxError.place) he
    rw [hraises.places] at hmem
    obtain ⟨t, ht, hte⟩ := List.mem_map.1 hmem
    exact ⟨t, hsub.subset ht, hte.symm⟩
  · rw [← List.pairwise_map (R := (· < ·)), hraises.places, List.pairwise_map]
    exact (TokenStream.places_sorted hs).sublist hsub
  · rintro before t between u after rfl
    exact hraises.reaches.orderly.match_between
  · have hlen := congrArg List.length hraises.places
    rw [List.length_map, List.length_map] at hlen
    rw [hlen, ← TokenStream.length_seen]
    exact hsub.length_le

theorem errors_sorted_closingParens :
    ∃ s h e f, TokenStream.ofString .folded ") x )" = .ok s ∧
      Raises ((ofStream s).addListener (.collector "A.cls")) .anonymousUnit h [e, f] ∧
      e.place < f.place := by
  obtain ⟨s, hs⟩ := TokenStream.ofString_ok .folded ") x )"
  let p : Parser := (ofStream s).addListener (.collector "A.cls")
  have hcount : (p.parse .anonymousUnit).1.errorCount = 2 := by
    have h : (TokenStream.ofString .folded ") x )").toOption.map (fun s =>
        (((ofStream s).addListener (.collector "A.cls")).parse .anonymousUnit).1.errorCount) =
          some 2 := by
      decide +kernel
    rw [hs] at h
    exact Option.some.inj h
  obtain ⟨h, es, hr, _, _, hsorted, _⟩ := errors_sorted (p := p) hs .anonymousUnit
  have hlen : 2 = 0 + es.length := hcount.symm.trans hr.counted
  match es, hlen with
  | [e, f], _ => exact ⟨s, h, e, f, hs, hr, by simpa using hsorted⟩

end Parser

end ApexSyntax
