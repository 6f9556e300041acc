-- Every call ends, whoever listens: with a tree, or with the error that a
-- listener throws. On the way it never goes back, and never past the end.
import ApexSyntax.Proofs.Parser.Effort
import ApexSyntax.Proofs.Parser.History
import ApexSyntax.Proofs.Parser.Scans

namespace ApexSyntax.Parser

/-- Steps that end when nobody listens end whoever listens: a listener can only throw an error
on the way. -/
theorem ends_of_unheard {n : Nat} {ss : List Step} {p r : Parser}
    (h : runWithin n ss p.unheard = (r, .finished)) :
    (∃ q, runWithin n ss p = (q, .finished)) ∨
    ∃ q e, runWithin n ss p = (q, .thrown e) ∧ Listener.stopsAt p.listeners = true := by
  obtain ⟨q, raised, ending, ⟨hcalm, hstrict⟩, _⟩ := exists_runsTo n ss p
  have hend : ending = .finished := by
    have h0 : runWithin n ss p.unheard = _ := hcalm [] rfl
    rw [h] at h0
    cases h0
    rfl
  subst hend
  by_cases hl : Listener.stopsAt p.listeners = true
  · have h1 := hstrict p.listeners hl
    cases raised with
    | nil => exact .inl ⟨_, h1⟩
    | cons e later => exact .inr ⟨(runWithin n ss p).1, e, Prod.ext rfl h1, hl⟩
  · exact .inl ⟨_, hcalm p.listeners (Bool.eq_false_iff.2 hl)⟩

/-- A call comes to the end of its steps, or a listener throws an error. -/
theorem run_ends (p : Parser) (entry : Entry) :
    (∃ q, p.run entry = (q, .finished)) ∨
    ∃ q e, p.run entry = (q, .thrown e) ∧ Listener.stopsAt p.listeners = true := by
  -- Nobody listens in the first run, so it has fuel enough.
  obtain ⟨r, hr⟩ := run_finished (p := p.unheard) rfl entry
  have hfresh : runWithin p.fuel [entry.step] p.fresh.unheard = (r, .finished) := hr
  exact ends_of_unheard hfresh

/-- The fuel of an entry is enough for every step of the grammar. -/
theorem exists_ends_of_plain {s : Step} (hs : s.plain) (p : Parser) :
    ∃ q ending, runWithin p.fuel [s] p = (q, ending) ∧ ending ≠ .exhausted := by
  obtain ⟨n, r, hn, hle⟩ := spends_of_plain s hs p.unheard rfl
  have hfuel : n ≤ p.fuel := by
    have hweight := weight_le s
    have h1 : p.unheard.left = p.left := rfl
    have h2 : p.fuel = 1024 * (p.left + 1) := rfl
    split at hle <;> omega
  obtain ⟨k, hk⟩ := Nat.exists_eq_add_of_le hfuel
  have hunheard := runWithin_add hn nofun k
  rw [← hk] at hunheard
  rcases ends_of_unheard hunheard with ⟨q, hq⟩ | ⟨q, e, hq, -⟩
  · exact ⟨q, _, hq, nofun⟩
  · exact ⟨q, _, hq, nofun⟩

theorem run_ne_exhausted (p : Parser) (entry : Entry) : (p.run entry).2 ≠ .exhausted := by
  rcases run_ends p entry with ⟨q, hq⟩ | ⟨q, e, hq, _⟩
  · rw [hq]
    exact nofun
  · rw [hq]
    exact nofun

/-- The parser of a run is reached from the start of the call. -/
theorem exists_reaches_run (p : Parser) (entry : Entry) :
    ∃ h, Reaches [entry.step] p.fresh h [] (p.run entry).1 :=
  reaches_of_runWithin (Prod.ext rfl rfl : p.run entry = _) (run_ne_exhausted p entry)

/-- Every call ends, from every position of every stream: with a tree, or with an
error that a listener throws. More steps than it was allowed would change nothing,
and all scans of the tokens ahead end. From each parser on the way to the next,
the position never decreases, and never passes the end of the text. -/
theorem call_ends (p : Parser) (entry : Entry) :
    ((∃ q, p.run entry = (q, .finished) ∧ (p.parse entry).2 = .ok q.tree.root) ∨
      ∃ q e, p.run entry = (q, .thrown e) ∧ (p.parse entry).2 = .error e ∧
        Listener.stopsAt p.listeners = true) ∧
    (∀ n ≥ 1024 * (p.lookahead.left + 1), runWithin n [entry.step] p.fresh = p.run entry) ∧
    (∀ v : Lookahead, v.ScansEnd) ∧
    (∃ h, Reaches [entry.step] p.fresh h [] (p.run entry).1) ∧
    ∀ h ss q, Reaches [entry.step] p.fresh h ss q →
      p.position ≤ q.position ∧ q.position ≤ max p.position p.stream.visible.size ∧
      ∀ h' ss' r, Reaches ss q h' ss' r → q.position ≤ r.position := by
  refine ⟨?_, ?_, Lookahead.scansEnd, exists_reaches_run p entry, ?_⟩
  · rcases run_ends p entry with ⟨q, hq⟩ | ⟨q, e, hq, hl⟩
    · exact .inl ⟨q, hq, by rw [parse_of_run hq nofun]⟩
    · exact .inr ⟨q, e, hq, parse_of_thrown (by rw [hq]), hl⟩
  · intro n hn
    obtain ⟨k, rfl⟩ := Nat.exists_eq_add_of_le hn
    have hrun : runWithin p.fuel [entry.step] p.fresh = p.run entry := rfl
    exact runWithin_add hrun (run_ne_exhausted p entry) k
  · intro h ss q hr
    have hm := hr.moves
    refine ⟨hm.position_le, ?_, fun h' ss' r hr' => hr'.moves.position_le⟩
    have hw := hm.within
    have hpos : p.fresh.position = p.position := rfl
    have hstream : p.fresh.stream = p.stream := rfl
    rw [hpos, hstream] at hw
    omega

end ApexSyntax.Parser
