-- Nothing is skipped silently. Wherever a call skips a token, it has reported an
-- error and matched nothing since. So a call that reports nothing matches every
-- token that it reads, and a unit reads them all.
import ApexSyntax.Proofs.Parser.Ending
import ApexSyntax.Proofs.Parser.Recovery
import ApexSyntax.Proofs.Parser.Termination

namespace ApexSyntax

/-! ## Orderly deeds -/

namespace Deed

/-- Whether a parser recovers behind a deed, by whether it did before. -/
def recovers (recovering : Bool) : Deed → Bool
  | reads l => recovering && l.isSkipped
  | reports _ => true

/-- Tokens are skipped only by a parser that recovers, and errors are reported
only by one that does not. -/
def Fits (recovering : Bool) : Deed → Prop
  | reads l => l.isSkipped = true → recovering = true
  | reports _ => recovering = false

/-- Whether a parser recovers behind some deeds. -/
def recoversBehind (recovering : Bool) (h : List Deed) : Bool := h.foldl recovers recovering

/-- Every deed fits when it is its turn. -/
def Orderly (recovering : Bool) : List Deed → Prop
  | [] => True
  | d :: h => d.Fits recovering ∧ Orderly (d.recovers recovering) h

section Orderly

variable {recovering : Bool} {h h' : List Deed}

theorem recoversBehind_append (recovering : Bool) (h h' : List Deed) :
    recoversBehind recovering (h ++ h') = recoversBehind (recoversBehind recovering h) h' :=
  List.foldl_append

theorem orderly_append : Orderly recovering (h ++ h') ↔
    Orderly recovering h ∧ Orderly (recoversBehind recovering h) h' := by
  induction h generalizing recovering with
  | nil => simp [Orderly, recoversBehind]
  | cons d h ih =>
    rw [List.cons_append, Orderly, Orderly, ih, and_assoc]
    rfl

/-- Matched tokens always fit, and end a recovery. -/
theorem orderly_matched (recovering : Bool) {ls : List Leaf}
    (hls : ∀ l ∈ ls, l.isSkipped = false) :
    Orderly recovering (ls.map reads) ∧
      (ls ≠ [] → recoversBehind recovering (ls.map reads) = false) := by
  induction ls generalizing recovering with
  | nil => exact ⟨trivial, fun hne => absurd rfl hne⟩
  | cons l ls ih =>
    have hl : l.isSkipped = false := hls l List.mem_cons_self
    have hd : (reads l).recovers recovering = false := by rw [recovers, hl, Bool.and_false]
    obtain ⟨ho, hr⟩ := ih false fun t ht => hls t (List.mem_cons_of_mem _ ht)
    rw [List.map_cons, Orderly, hd, recoversBehind, List.foldl_cons, hd]
    refine ⟨⟨fun hs => absurd hs (Bool.eq_false_iff.1 hl), ho⟩, fun _ => ?_⟩
    cases ls with
    | nil => rfl
    | cons => exact hr (List.cons_ne_nil _ _)

/-- A recovery was there from the start or has begun with a report, and nothing
was matched since. -/
theorem report_of_recovers (hr : recoversBehind recovering h = true) :
    (recovering = true ∧ ∀ d ∈ h, d.isMatch = false) ∨
      ∃ a t b, h = a ++ Deed.reports t :: b ∧ ∀ d ∈ b, d.isMatch = false := by
  induction h generalizing recovering with
  | nil => exact .inl ⟨hr, by simp⟩
  | cons d h ih =>
    rcases ih hr with ⟨hd, hall⟩ | ⟨a, t, b, rfl, hb⟩
    · cases d with
      | reports t => exact .inr ⟨[], t, h, rfl, hall⟩
      | reads l =>
        obtain ⟨hrec, hl⟩ := Bool.and_eq_true_iff.1 hd
        exact .inl ⟨hrec, by simpa [isMatch, hl] using hall⟩
    · exact .inr ⟨d :: a, t, b, rfl, hb⟩

/-- A recovery lasts until a token is matched. -/
theorem exists_match_of_not_recovers (hr : recoversBehind true h = false) :
    ∃ d ∈ h, d.isMatch = true := by
  induction h with
  | nil => cases hr
  | cons d h ih =>
    by_cases hd : d.recovers true = true
    · rw [recoversBehind, List.foldl_cons, hd] at hr
      obtain ⟨e, he, hm⟩ := ih hr
      exact ⟨e, List.mem_cons_of_mem _ he, hm⟩
    · refine ⟨d, List.mem_cons_self, ?_⟩
      cases d with
      | reads l => simpa [recovers, isMatch] using hd
      | reports t => exact absurd rfl hd

/-- A skipped token stands behind a report, with no match between. -/
theorem Orderly.report_before {before after : List Deed} {l : Leaf}
    (h : Orderly false (before ++ .reads l :: after)) (hl : l.isSkipped = true) :
    ∃ a t b, before = a ++ Deed.reports t :: b ∧ ∀ d ∈ b, d.isMatch = false := by
  rcases report_of_recovers ((orderly_append.1 h).2.1 hl) with ⟨hf, _⟩ | hb
  · cases hf
  · exact hb

/-- Between two reports, a token is matched. -/
theorem Orderly.match_between {a m c : List Deed} {t u : Token}
    (h : Orderly recovering (a ++ .reports t :: (m ++ .reports u :: c))) :
    ∃ d ∈ m, d.isMatch = true := by
  have h1 : Orderly true (m ++ .reports u :: c) := (orderly_append.1 h).2.2
  exact exists_match_of_not_recovers (orderly_append.1 h1).2.1

end Orderly

end Deed

namespace Parser

/-! ## Calls are orderly -/

/-- In every call, tokens are skipped only while the parser recovers. -/
theorem always_guarded (p : Parser) (entry : Entry) :
    Always (fun s _ r => SkipsAt r s → r.recovering = true) [entry.step] p.fresh := by
  apply always_of_unheard (fun s _ r => SkipsAt r s → r.recovering = true) fun _ _ _ h => h
  obtain ⟨q, hq⟩ := run_finished (p := p.unheard) rfl entry
  have hg : Guarded [entry.step] p.fresh.unheard q := guarded_entry (leads_of_runWithin hq)
  exact always_of_leads_all (fun _ _ _ ha => ha) hg

/-- Only a step that skips adds a skipped leaf. -/
theorem skipsAt_of_reads {p : Parser} {s : Step} {l : Leaf}
    (hl : .reads l ∈ deeds p (p.perform s).1) (hs : l.isSkipped = true) : SkipsAt p s := by
  cases effect_perform p s with
  | quiet _ _ he _ hleaves =>
    rw [deeds_eq_nil he hleaves] at hl
    cases hl
  | reports message hr heq =>
    rw [heq, deeds_report hr] at hl
    cases List.mem_singleton.1 hl
  | takes n _ heq =>
    obtain ⟨ls, hd, _, _, hall⟩ := exists_deeds_takeMany p (n + 1)
    rw [heq, hd] at hl
    obtain ⟨k, hk, hkl⟩ := List.mem_map.1 hl
    cases hkl
    rw [hall l hk] at hs
    cases hs
  | skips hskip _ => exact hskip

/-- What a step does fits, when it skips only in recovery. -/
theorem orderly_deeds {p : Parser} {s : Step} (hs : SkipsAt p s → p.recovering = true) :
    Deed.Orderly p.recovering (deeds p (p.perform s).1) ∧
      Deed.recoversBehind p.recovering (deeds p (p.perform s).1) = (p.perform s).1.recovering := by
  cases effect_perform p s with
  | quiet hr _ he _ hl =>
    rw [deeds_eq_nil he hl, hr]
    exact ⟨trivial, rfl⟩
  | reports message hr heq =>
    rw [heq, deeds_report hr, recovering_report]
    exact ⟨⟨hr, trivial⟩, rfl⟩
  | takes n _ heq =>
    obtain ⟨ls, hd, _, hlen, hall⟩ := exists_deeds_takeMany p (n + 1)
    obtain ⟨ho, hr⟩ := Deed.orderly_matched p.recovering hall
    rw [heq, hd, recovering_takeMany]
    exact ⟨ho, hr (List.ne_nil_of_length_eq_add_one hlen)⟩
  | skips hskip heq =>
    rw [heq, deeds_skip, recovering_skip, hs hskip]
    exact ⟨⟨fun _ => rfl, trivial⟩, rfl⟩

/-- Whatever a call has done so far is orderly. -/
theorem Reaches.orderly {p q : Parser} {entry : Entry} {ss : List Step} {h : List Deed}
    (hr : Reaches [entry.step] p.fresh h ss q) : Deed.Orderly false h := by
  have hinv := hr.invariant
    (fun h _ r => Deed.Orderly false h ∧ Deed.recoversBehind false h = r.recovering) ?_
    (always_guarded p entry) ⟨trivial, rfl⟩
  · exact hinv.1
  · rintro h s rest r hguard ⟨ho, hb⟩
    obtain ⟨hd, hd'⟩ := orderly_deeds hguard
    rw [Deed.orderly_append, Deed.recoversBehind_append, hb]
    exact ⟨⟨ho, hd⟩, hd'⟩

/-! ## Calls without a report -/

/-- A call that reports nothing skips no token. -/
theorem LosslessCall.errorCount_eq_zero {p q : Parser} {entry : Entry} {tree : Tree}
    (h : LosslessCall p entry q tree) (he : q.errorCount = p.errorCount) :
    tree.errorCount = 0 := by
  obtain ⟨r, hr, htree, rfl⟩ := h.run_eq
  have hg := guarded_entry (leads_of_runWithin hr)
  have hs := ((silent_of_guarded hg).keeps rfl he).2
  rw [skippedCount, htree, Builder.leaves_single] at hs
  exact hs

/-- A run that a listener cuts short has reported the error that was thrown. -/
theorem errorCount_lt_of_thrown {n : Nat} {ss : List Step} {p q : Parser} {e : SyntaxError}
    (h : runWithin n ss p = (q, .thrown e)) : p.errorCount < q.errorCount := by
  induction n generalizing ss p with
  | zero => cases ss <;> cases h
  | succ n ih =>
    cases ss with
    | nil => cases h
    | cons s ss =>
      rw [runWithin] at h
      split at h
      · rename_i hp
        exact Nat.lt_of_le_of_lt (moves_perform hp).errorCount_le (ih h)
      · rename_i hp
        cases h
        obtain ⟨message, hm⟩ := perform_error hp
        unfold report at hm
        split at hm
        · cases hm
        · obtain rfl := congrArg Prod.fst hm
          exact Nat.lt_succ_self _

/-! ## All calls -/

/-- A unit that skips nothing has matched all that it has read, and the end. -/
theorem LosslessCall.matched_of_unit {p q : Parser} {entry : Entry} {tree : Tree}
    (h : LosslessCall p entry q tree) (hu : entry.isUnit = true) (hs : tree.errorCount = 0) :
    ∀ t ∈ tokensOf tree.leaves ++ [p.stream.eof], ⟨t, false⟩ ∈ tree.leaves := by
  intro t ht
  rcases List.mem_append.1 ht with ht | ht
  · rw [tokensOf, List.mem_filter, List.mem_map] at ht
    obtain ⟨⟨l, hl, rfl⟩, _⟩ := ht
    have hm : l.isSkipped = false := by simpa using List.countP_eq_zero.1 hs l hl
    rwa [← hm]
  · obtain ⟨r, hr, htree, rfl⟩ := h.run_eq
    have hrun : Runs [entry.step] p.fresh r := leads_of_runWithin hr
    have hend := endMatched_of_unit hu hrun
    rw [EndMatched, htree, Builder.leaves_single, hrun.moves.stream] at hend
    rwa [List.mem_singleton.1 ht]

section Calls

variable {p : Parser} {entry : Entry}

theorem errorCount_parse (p : Parser) (entry : Entry) :
    (p.parse entry).1.errorCount = (p.run entry).1.errorCount := by
  rw [parse]
  split <;> rename_i h <;> rw [h]

theorem listeners_parse (p : Parser) (entry : Entry) :
    (p.parse entry).1.listeners = (p.run entry).1.listeners := by
  rw [parse]
  split <;> rename_i h <;> rw [h]

/-- The leaves of a tree are what its call has read. -/
theorem LosslessCall.leaves_eq {q : Parser} {tree : Tree} {h : List Deed}
    (hc : LosslessCall p entry q tree)
    (hr : Reaches [entry.step] p.fresh h [] (p.run entry).1) :
    tree.leaves = h.filterMap Deed.leaf? := by
  have hl := hr.leaves
  rw [hc.oneRoot, Builder.leaves_single] at hl
  exact hl

/-- The errors that a call counts are its reports. -/
theorem Reaches.errorCount_parse {h : List Deed}
    (hr : Reaches [entry.step] p.fresh h [] (p.run entry).1) :
    (p.parse entry).1.errorCount = p.errorCount + (h.filterMap Deed.reported?).length := by
  obtain ⟨es, _, hc, hes⟩ := hr.heard
  have hlen := congrArg List.length hes
  rw [List.length_map, List.length_map] at hlen
  rw [Parser.errorCount_parse, hc, hlen]
  rfl

/-- Nothing is skipped silently. Wherever a call may come, only a parser that
recovers skips a token; every skipped leaf of the tree stands behind a report of
the call, with no match between. So a call that counts no error returns a tree
without skipped tokens, and a unit has matched every visible token from its start
on, and the end. -/
theorem skips_follow_reports (p : Parser) (entry : Entry) :
    (∀ h s rest q, Reaches [entry.step] p.fresh h (s :: rest) q →
      ∀ l, Deed.reads l ∈ deeds q (q.perform s).1 → l.isSkipped = true →
        q.recovering = true) ∧
    (∃ h, Reaches [entry.step] p.fresh h [] (p.run entry).1 ∧
      (p.parse entry).1.errorCount = p.errorCount + (h.filterMap Deed.reported?).length ∧
      (∀ q tree, p.parse entry = (q, .ok tree) → tree.leaves = h.filterMap Deed.leaf?) ∧
      ∀ before l after, h = before ++ .reads l :: after → l.isSkipped = true →
        ∃ a t b, before = a ++ .reports t :: b ∧ ∀ d ∈ b, d.isMatch = false) ∧
    ((p.parse entry).1.errorCount = p.errorCount →
      ∃ tree, (p.parse entry).2 = .ok tree ∧ tree.errorCount = 0 ∧
        (entry.isUnit = true →
          ∀ t ∈ p.stream.visible.toList.drop p.position ++ [p.stream.eof],
            ⟨t, false⟩ ∈ tree.leaves)) := by
  refine ⟨?_, ?_, ?_⟩
  · intro h s rest q hr l hl hs
    exact always_guarded p entry _ _ _ _ hr (skipsAt_of_reads hl hs)
  · obtain ⟨h, hr⟩ := exists_reaches_run p entry
    refine ⟨h, hr, hr.errorCount_parse, ?_, ?_⟩
    · intro q tree hq
      rcases run_ends p entry with ⟨r, hfin⟩ | ⟨r, e, hthrown, _⟩
      · obtain ⟨tree', hc, _⟩ := exists_call_of_finished hfin
        rw [hc.returns] at hq
        cases hq
        exact hc.leaves_eq hr
      · have he := parse_of_thrown (congrArg Prod.snd hthrown)
        rw [hq] at he
        cases he
    · rintro before l after rfl hl
      exact hr.orderly.report_before hl
  · intro he
    rw [Parser.errorCount_parse] at he
    rcases run_ends p entry with ⟨r, hfin⟩ | ⟨r, e, hthrown, _⟩
    · obtain ⟨tree, hc, hm, hend⟩ := exists_call_of_finished hfin
      rw [hfin] at he
      have hs := hc.errorCount_eq_zero he
      refine ⟨tree, by rw [hc.returns], hs, ?_⟩
      intro hu
      rw [← hc.tokens_of_atEnd hm (hend hu)]
      exact hc.matched_of_unit hu hs
    · have hlt : p.fresh.errorCount < r.errorCount := errorCount_lt_of_thrown hthrown
      rw [hthrown] at he
      exact absurd he (Nat.ne_of_gt hlt)

theorem skips_follow_reports_atSemicolon :
    (∃ h, Reaches [Entry.compilationUnit.step] atSemicolon.fresh h []
        (atSemicolon.run .compilationUnit).1 ∧
      ∃ a t b l after, h = a ++ .reports t :: b ++ .reads l :: after ∧ l.isSkipped = true) ∧
    (atSemicolon.parse .anonymousUnit).1.errorCount = atSemicolon.errorCount ∧
    ∃ tree, (atSemicolon.parse .anonymousUnit).2 = .ok tree ∧
      ∀ t ∈ atSemicolon.stream.visible.toList ++ [atSemicolon.stream.eof],
        ⟨t, false⟩ ∈ tree.leaves := by
  constructor
  · obtain ⟨_, ⟨h, hr, _, hleaves, hskip⟩, _⟩ := skips_follow_reports atSemicolon .compilationUnit
    obtain ⟨q, tree, hc, _⟩ := exists_call (p := atSemicolon) rfl .compilationUnit
    have hcount : (atSemicolon.parse .compilationUnit).2.toOption.map Tree.errorCount = some 1 := by
      decide +kernel
    rw [hc.returns] at hcount
    obtain ⟨l, hl, hs⟩ := List.countP_pos_iff.1 (Nat.lt_of_lt_of_eq Nat.one_pos
      (Option.some.inj hcount).symm)
    rw [hleaves q tree hc.returns] at hl
    obtain ⟨d, hd, hdl⟩ := List.mem_filterMap.1 hl
    cases d with
    | reports t => cases hdl
    | reads k =>
      cases hdl
      obtain ⟨before, after, rfl⟩ := List.append_of_mem hd
      obtain ⟨a, t, b, rfl, _⟩ := hskip before l after rfl hs
      exact ⟨_, hr, a, t, b, l, after, rfl, hs⟩
  · have he : (atSemicolon.parse .anonymousUnit).1.errorCount = atSemicolon.errorCount := by
      decide +kernel
    obtain ⟨_, _, hclean⟩ := skips_follow_reports atSemicolon .anonymousUnit
    obtain ⟨tree, ht, _, hmatched⟩ := hclean he
    exact ⟨he, tree, ht, hmatched rfl⟩

end Calls

end Parser

end ApexSyntax
