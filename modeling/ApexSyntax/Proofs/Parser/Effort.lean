-- The parser always ends. A token that is read pays for 1024 steps; from the form
-- of each part, its weight pays for what is done before the next token is read.
-- The induction is on the tokens that are left, then on the weight of the step.
import ApexSyntax.Proofs.Parser.Forms

namespace ApexSyntax.Parser

/-! ## Tokens that are left -/

/-- The number of tokens that are still to be read. -/
def left (p : Parser) : Nat := p.lookahead.left

theorem left_eq (p : Parser) : p.left = p.stream.visible.size - p.position := rfl

theorem Moves.left_le {p q : Parser} (h : Moves p q) : q.left ≤ p.left := by
  have := h.position_le
  rw [left_eq, left_eq, h.stream]
  omega

theorem Moves.left_lt {p q : Parser} (h : Moves p q) (hp : q.position ≠ p.position) :
    q.left < p.left := by
  have h1 := h.position_le
  have h2 := h.within
  rw [left_eq, left_eq, h.stream]
  omega

theorem position_take_ne {p : Parser} (h : p.lookahead.kind 0 ≠ .eof) :
    p.take.position ≠ p.position := by
  rw [position_take, behind_of_lt ((kind_ne_eof_iff p).1 h)]
  omega

theorem position_skip_ne {p : Parser} (h : p.lookahead.kind 0 ≠ .eof) :
    p.skip.position ≠ p.position := position_take_ne h

theorem position_takeMany_ne {p : Parser} (h : p.lookahead.kind 0 ≠ .eof) (n : Nat) :
    (p.takeMany (n + 1)).position ≠ p.position := by
  have h1 : p.take.position ≠ p.position := position_take_ne h
  have h2 := (moves_take p).position_le
  have h3 := (moves_kept.takeMany p.take n).position_le
  have h4 : (p.takeMany (n + 1)).position = (p.take.takeMany n).position := rfl
  omega

/-- What is at the end of the text does not move on. -/
theorem kind_of_position_eq {p q : Parser} (h : Moves p q) (hp : q.position = p.position) :
    q.lookahead.kind 0 = p.lookahead.kind 0 := by
  rw [kind_lookahead, kind_lookahead, current_eq, current_eq, h.stream, hp]

/-! ## Budgets -/

/-- Some steps end within a budget, to which each token that is read adds 1024
more. Once a token is read, a refund is left over. -/
def Spends (budget refund : Nat) (ss : List Step) (p : Parser) : Prop :=
  ∃ n q, runWithin n ss p = (q, .finished) ∧
    n + 1024 * q.left + (if q.position = p.position then 0 else refund) ≤ budget + 1024 * p.left

section Budgets

variable {b c r : Nat} {s : Step} {ss ts more : List Step} {p p' : Parser}

theorem spends_nil (b r : Nat) (p : Parser) : Spends b r [] p :=
  ⟨0, p, rfl, by simp⟩

theorem Spends.mono {r' : Nat} (h : Spends b r ss p) (hb : b ≤ c) (hr : r' ≤ r) :
    Spends c r' ss p := by
  obtain ⟨n, q, hn, hle⟩ := h
  refine ⟨n, q, hn, ?_⟩
  split at hle <;> simp_all <;> omega

/-- A run that ends is a run that moves on. -/
theorem moves_of_runWithin {n : Nat} {q : Parser} (h : runWithin n ss p = (q, .finished)) :
    Moves p q := (leads_of_runWithin h).moves

theorem Spends.append (h : Spends b r ss p) (h' : ∀ q, Moves p q → Spends c r ts q) :
    Spends (b + c) r (ss ++ ts) p := by
  obtain ⟨n, q, hn, hle⟩ := h
  have hq := moves_of_runWithin hn
  obtain ⟨n', q', hn', hle'⟩ := h' q hq
  have hq' := moves_of_runWithin hn'
  refine ⟨n + n', q', runWithin_append hn hn', ?_⟩
  have h1 := hq.position_le
  have h2 := hq'.position_le
  split at hle <;> split at hle' <;> split <;> omega

/-- One step, and the steps that it leads to. -/
theorem Spends.perform (hp : p.perform s = (p', .ok more)) (h : Spends b r more p')
    (stays : p'.position = p.position → b + 1 ≤ c)
    (reads : p'.position ≠ p.position → b + 1 + r ≤ c + 1024) : Spends c r [s] p := by
  obtain ⟨n, q, hn, hle⟩ := h
  have hm := moves_perform hp
  have hq := moves_of_runWithin hn
  refine ⟨n + 1, q, ?_, ?_⟩
  · simp only [runWithin, hp, List.append_nil]
    exact hn
  · have h1 := hm.position_le
    have h2 := hq.position_le
    by_cases hs : p'.position = p.position
    · have := stays hs
      have := hm.left_le
      rw [hs] at hle
      omega
    · have := reads hs
      have := hm.left_lt hs
      split at hle <;> split <;> omega

/-- A step that reads a token pays for all that follows it. -/
theorem Spends.reads (hp : p.perform s = (p', .ok more)) (hne : p'.position ≠ p.position)
    (h : Spends b 0 (more ++ ss) p') (hb : b + 1 + r ≤ c + 1024) : Spends c r (s :: ss) p := by
  obtain ⟨n, q, hn, hle⟩ := h
  refine ⟨n + 1, q, ?_, ?_⟩
  · simp only [runWithin, hp]
    exact hn
  · have := (moves_perform hp).left_lt hne
    split at hle <;> split <;> omega

theorem spends_cons (h : Spends s.weight s.refund [s] p) (hr : r ≤ s.refund)
    (h' : ∀ q, Moves p q → Spends (total ss) r ss q) : Spends (total (s :: ss)) r (s :: ss) p :=
  (h.mono (Nat.le_refl _) hr).append h'

/-- Steps that each keep to their weight keep to it together. -/
theorem spends_all (h : ∀ s ∈ ss, ∀ q, Moves p q → Spends s.weight s.refund [s] q)
    (hr : ∀ s ∈ ss, r ≤ s.refund) : Spends (total ss) r ss p := by
  induction ss generalizing p with
  | nil => exact spends_nil _ _ _
  | cons s ss ih =>
    have hs := h s List.mem_cons_self p (.refl p)
    apply spends_cons hs (hr s List.mem_cons_self)
    intro q hq
    apply ih
    · intro t ht q' hq'
      exact h t (List.mem_cons_of_mem _ ht) q' (hq.trans hq')
    · intro t ht
      exact hr t (List.mem_cons_of_mem _ ht)

end Budgets

/-! ## Steps that are no parts -/

section Steps

variable {p : Parser}

/-- Without a listener that throws, a report is followed by the given steps. -/
theorem reportThen_eq (hl : Listener.stopsAt p.listeners = false) (message : String)
    (steps : List Step) :
    p.reportThen message steps = ((p.report message).1, .ok steps) := by
  have h : (p.report message).2 = none := by
    unfold report
    split <;> simp [hl]
  unfold reportThen
  split
  · rename_i heq
    rw [heq] at h
    cases h
  · rename_i heq
    rw [heq]

/-- A step that leads to no other steps. -/
theorem spends_single {s : Step} {p' : Parser} (h : p.perform s = (p', .ok [])) :
    Spends 1 64 [s] p :=
  .perform h (spends_nil 0 64 p') (by omega) (by omega)

theorem spends_complain (hl : Listener.stopsAt p.listeners = false) (c : Complaint) :
    Spends 1 64 [.complain c] p :=
  spends_single (reportThen_eq hl _ [])

/-- An expected token, and then some more steps. -/
theorem spends_expect (hl : Listener.stopsAt p.listeners = false) {s : Step} {e : Expected}
    (next : List Step) (he : e.isReal) (hs : p.perform s = p.expect e next)
    (hn : ∀ q, Moves p q → q.left < p.left → Spends (total next) 0 next q)
    (ht : total next ≤ 900) : Spends 3 64 [s] p := by
  simp only [expect] at hs
  split at hs
  · rename_i ha
    have hv : p.lookahead.kind 0 ≠ .eof := Expected.kind_ne_eof he ha
    have hm := moves_take p
    have hne := position_take_ne hv
    refine .reads hs hne (b := total next) ?_ (by omega)
    rw [List.append_nil]
    exact hn _ hm (hm.left_lt hne)
  · rw [reportThen_eq hl, reportThen_eq hl] at hs
    split at hs
    · rename_i hd
      have hv : p.lookahead.kind 0 ≠ .eof := by
        intro hv
        simp [Token.isEof, ← kind_lookahead, hv] at hd
      refine .perform hs (b := 2) ?_ (by simp) (by simp)
      generalize hq : (p.report _).1 = q
      have hm : Moves p q := hq ▸ moves_report p _
      have hpos : q.position = p.position := hq ▸ position_report p _
      have hv' : q.lookahead.kind 0 ≠ .eof := by rwa [kind_of_position_eq hm hpos]
      have hne := position_skip_ne hv'
      have hm' := hm.trans (moves_skip q)
      have hlt : q.skip.left < p.left := by
        have := (moves_skip q).left_lt hne
        have := hm.left_le
        omega
      refine .reads (s := .skip) rfl hne (b := 1 + total next) ?_ (by omega)
      change Spends (1 + total next) 0 ([Step.take 1] ++ next) q.skip
      have ht1 : Spends 1 0 [.take 1] q.skip := (spends_single rfl).mono (by omega) (by omega)
      apply ht1.append
      intro q' hq'
      have := hq'.left_le
      exact hn q' (hm'.trans hq') (by omega)
    · exact .perform hs (spends_nil 2 64 _) (by omega) (by omega)

theorem spends_skipRest (p : Parser) : Spends 2 64 [.skipRest] p := by
  induction h : p.left using Nat.strongRecOn generalizing p with
  | ind n ih =>
    by_cases he : p.current.isEof = true
    · have hp : p.perform .skipRest = (p, .ok []) := by simp [Parser.perform, he]
      exact .perform hp (spends_nil 0 64 p) (by omega) (by omega)
    · have hp : p.perform .skipRest = (p.skip, .ok [.skipRest]) := by simp [Parser.perform, he]
      have hne : p.skip.position ≠ p.position := position_skip_ne (by
        simpa [Token.isEof, kind_lookahead] using he)
      have hlt := (moves_skip p).left_lt hne
      exact .reads hp hne ((ih _ (h ▸ hlt) p.skip rfl).mono (Nat.le_refl _) (by omega)) (by omega)

theorem spends_endOfText (hl : Listener.stopsAt p.listeners = false) :
    Spends 4 64 [.endOfText] p := by
  by_cases he : p.current.isEof = true
  · have hp : p.perform .endOfText = (p.take, .ok []) := by simp [Parser.perform, he]
    exact (spends_single hp).mono (by omega) (Nat.le_refl _)
  · have hp := reportThen_eq hl (extraneousMessage p.current Kind.eof.display) [.skipRest, .take 1]
    have h : p.perform .endOfText =
        ((p.report (extraneousMessage p.current Kind.eof.display)).1,
          .ok [.skipRest, .take 1]) := by
      rw [Parser.perform, if_neg he, hp]
    refine .perform h (b := 3) ?_ (by omega) (by simp)
    exact Spends.append (spends_skipRest _) fun _ _ => spends_single rfl

end Steps

/-! ## Parts -/

section Parts

variable {p : Parser} {x : Step} {ss : List Step}

/-- Every lighter step keeps to its weight, and so does every step behind the
next token. -/
def Settled (x : Step) (p : Parser) : Prop :=
  ∀ t q, t.plain → Moves p q → q.left < p.left ∨ t.weight < x.weight →
    Spends t.weight t.refund [t] q

theorem spends_plain_or_progress (ih : Settled x p) {t : Step} {q : Parser} {i : Nat}
    (ht : t.plain ∨ t = .progress i) (hq : Moves p q) (hlt : q.left < p.left) :
    Spends t.weight t.refund [t] q := by
  rcases ht with ht | rfl
  · exact ih t q ht hq (.inl hlt)
  · exact spends_single rfl

/-- Steps that read a token first end, and it pays for all of them. -/
theorem spends_behindFirst {rest : List Step} (ih : Settled x p) {i : Nat}
    (h : behindFirst ss = some rest) (hr : ∀ s ∈ rest, s.plain ∨ s = .progress i) {q : Parser}
    (hq : Moves p q) (hv : q.lookahead.kind 0 ≠ .eof) :
    ∃ n r, runWithin n ss q = (r, .finished) ∧ r.position ≠ q.position ∧
      n + 1024 * r.left + 1024 ≤ total ss + 1024 * q.left := by
  induction ss generalizing q with
  | nil => cases h
  | cons s ss ihs =>
    cases s with
    | start rule =>
      have hb := moves_build q (·.start rule)
      obtain ⟨n, r, hn, hpos, hle⟩ := ihs h (hq.trans hb) hv
      refine ⟨n + 1, r, hn, hpos, ?_⟩
      simp only [total, Step.weight]
      have := hb.left_le
      omega
    | wrap mark rule =>
      have hb := moves_build q (·.wrap mark rule)
      obtain ⟨n, r, hn, hpos, hle⟩ := ihs h (hq.trans hb) hv
      refine ⟨n + 1, r, hn, hpos, ?_⟩
      simp only [total, Step.weight]
      have := hb.left_le
      omega
    | take k =>
      cases k with
      | zero => cases h
      | succ k =>
        cases h
        have hm : Moves q (q.takeMany (k + 1)) := moves_kept.takeMany q (k + 1)
        have hne := position_takeMany_ne hv k
        have hlt := hm.left_lt hne
        have hlep := hq.left_le
        have hs : Spends (total rest) 0 rest (q.takeMany (k + 1)) := by
          apply spends_all
          · intro s hs r hr'
            have := hr'.left_le
            exact spends_plain_or_progress ih (hr s hs) (hq.trans (hm.trans hr')) (by omega)
          · intro s _
            exact Nat.zero_le _
        obtain ⟨n, r, hn, hle⟩ := hs
        have hr' := (moves_of_runWithin hn).position_le
        have hq' := hm.position_le
        refine ⟨n + 1, r, hn, by omega, ?_⟩
        simp only [total, Step.weight]
        split at hle <;> omega
    | _ => cases h

/-- One turn of a list leaves as much for the next one. -/
theorem spends_turn {items : List Step} (ih : Settled x p) (hv : p.lookahead.kind 0 ≠ .eof)
    (hw : x.weight = 100) (hx : x.plain) (ht : total items ≤ 62)
    (hp : items.all (fun s => s.plain && !s.isLoop) = true) :
    Spends 99 0 (items ++ [Step.progress p.position, x]) p := by
  have hitems : Spends (total items) 64 items p := by
    rw [List.all_eq_true] at hp
    apply spends_all
    · intro s hs q hq
      have := weight_le_total hs
      have := hp s hs
      simp only [Bool.and_eq_true] at this
      exact ih s q this.1 hq (.inr (by omega))
    · intro s hs
      have := hp s hs
      simp_all [Step.refund]
  obtain ⟨n, q, hn, hle⟩ := hitems
  have hq := moves_of_runWithin hn
  -- Whatever the items did, something is read once the check for progress is made.
  obtain ⟨q', hq', hm, hlt, hleft⟩ : ∃ q', q.perform (.progress p.position) = (q', .ok []) ∧
      Moves q q' ∧ q'.left < p.left ∧ n + 1024 * q'.left + 64 ≤ total items + 1024 * p.left := by
    by_cases hpos : q.position = p.position
    · have hne := position_skip_ne (p := q) (by rwa [kind_of_position_eq hq hpos])
      have h1 := (moves_skip q).left_lt hne
      have h2 := hq.left_le
      refine ⟨q.skip, by simp [Parser.perform, hpos], moves_skip q, by omega, ?_⟩
      rw [if_pos hpos] at hle
      omega
    · have h1 := hq.left_lt hpos
      rw [if_neg hpos] at hle
      exact ⟨q, by simp [Parser.perform, hpos], .refl q, h1, hle⟩
  obtain ⟨m, r, hr, hle'⟩ := ih x q' hx (hq.trans hm) (.inl hlt)
  have hprog : runWithin 1 [.progress p.position] q = (q', .finished) := by
    simp [runWithin, hq']
  refine ⟨n + (1 + m), r, runWithin_append hn (runWithin_append hprog hr), ?_⟩
  split at hle' <;> split <;> omega

theorem spends_form (hl : Listener.stopsAt p.listeners = false) (ih : Settled x p)
    (hx : x.plain) (hf : Form p.lookahead x ss) :
    ∃ b, b + 1 ≤ x.weight ∧ Spends b x.refund ss p := by
  cases hf with
  | calm h =>
    simp only [lighter, Bool.and_eq_true, decide_eq_true_eq, List.all_eq_true] at h
    obtain ⟨⟨hlt, hall⟩, _⟩ := h
    refine ⟨total ss, hlt, ?_⟩
    apply spends_all
    · intro s hs q hq
      have := weight_le_total hs
      exact ih s q (hall s hs).1 hq (.inr (by omega))
    · intro s hs
      exact (hall s hs).2
  | reads hv h ht hr =>
    obtain ⟨n, q, hn, hne, hle⟩ := spends_behindFirst ih h hr (.refl p) hv
    refine ⟨0, weight_pos x, n, q, hn, ?_⟩
    have := refund_le x
    rw [if_neg hne]
    omega
  | turn items hv hw hloop _ ht hp _ =>
    refine ⟨99, by omega, ?_⟩
    have hr : x.refund = 0 := by simp [Step.refund, hloop]
    rw [hr]
    exact spends_turn ih hv hw hx ht hp
  | refused hw =>
    refine ⟨4, hw, Spends.mono ?_ (Nat.le_refl 4) (refund_le x)⟩
    rename_i r c
    have hs : Spends 1 64 [.start r] p := spends_single rfl
    have hk : ∀ q : Parser, Spends 1 64 [.skip] q := fun q => spends_single rfl
    have hrest : ∀ q : Parser, Spends (1 + 1) 64 ([Step.skip] ++ [Step.finish]) q := fun q =>
      (hk q).append fun q _ => spends_single rfl
    change Spends (1 + (1 + (1 + 1))) 64
      ([Step.start r] ++ ([Step.complain c] ++ [Step.skip, .finish])) p
    apply hs.append
    intro q hq
    have hc : Spends 1 64 [.complain c] q := spends_complain (by rw [hq.stops, hl]) c
    exact hc.append fun q _ => hrest q

/-- A part is replaced by the steps of its form. -/
theorem spends_part (hl : Listener.stopsAt p.listeners = false) (ih : Settled x p)
    (hx : x.plain) (hp : p.perform x = (p, .ok ss)) (hf : Form p.lookahead x ss) :
    Spends x.weight x.refund [x] p := by
  obtain ⟨b, hb, h⟩ := spends_form hl ih hx hf
  exact .perform hp h (fun _ => hb) fun hne => absurd rfl hne

end Parts

/-- Every step of the grammar keeps to its weight. -/
theorem spends_of_plain (s : Step) (hs : s.plain) (p : Parser)
    (hl : Listener.stopsAt p.listeners = false) : Spends s.weight s.refund [s] p := by
  have ih : Settled s p := fun t q ht hq hlt =>
    have : q.left ≤ p.left := hq.left_le
    spends_of_plain t ht q (by rw [hq.stops, hl])
  cases s with
  | start _ | wrap _ _ | finish | takeIf _ => exact spends_single rfl
  | complain c => exact spends_complain hl c
  | expect e => exact spends_expect hl [] hs rfl (fun q _ _ => spends_nil _ _ q) (by simp [total])
  | expectThen e next =>
    rw [Step.plain, Bool.and_eq_true] at hs
    have := weight_le next
    refine spends_expect hl [next] hs.1 rfl ?_ (by simp [total]; omega)
    intro q hq hlt
    exact (ih next q hs.2 hq (.inl hlt)).mono (by simp [total]) (Nat.zero_le _)
  | typ part => exact spends_part hl ih rfl rfl part.form
  | expr part => exact spends_part hl ih rfl rfl (part.form _)
  | soql part => exact spends_part hl ih rfl rfl part.form
  | stmt part => exact spends_part hl ih rfl rfl part.form
  | decl part => exact spends_part hl ih hs rfl (part.form hs)
  | take _ | skip | progress _ | endOfText | skipRest => cases hs
termination_by (p.left, s.weight)
decreasing_by
  rcases hlt with h | h
  · exact Prod.Lex.left _ _ h
  · rcases Nat.lt_or_eq_of_le this with h' | h'
    · exact Prod.Lex.left _ _ h'
    · rw [h']; exact Prod.Lex.right _ h

/-! ## Entries -/

/-- A unit reads up to the end of the text. -/
theorem spends_unit {unit : DeclPart} {p : Parser} (hl : Listener.stopsAt p.listeners = false)
    (h : ∀ s ∈ unit.expand p.lookahead, s.plain ∨ s = .endOfText ∨ s = .take 1)
    (ht : total (unit.expand p.lookahead) ≤ 144) : Spends 145 0 [.decl unit] p := by
  have hall : Spends (total (unit.expand p.lookahead)) 0 (unit.expand p.lookahead) p := by
    apply spends_all
    · intro s hs q hq
      have hl' : Listener.stopsAt q.listeners = false := by rw [hq.stops, hl]
      rcases h s hs with h | rfl | rfl
      · exact spends_of_plain s h q hl'
      · exact spends_endOfText hl'
      · exact spends_single rfl
    · intro s _
      exact Nat.zero_le _
  exact .perform rfl hall (fun _ => by omega) fun hne => absurd rfl hne

theorem spends_entry (entry : Entry) {p : Parser} (hl : Listener.stopsAt p.listeners = false) :
    Spends 145 0 [entry.step] p := by
  cases entry with
  | compilationUnit | triggerUnit | anonymousUnit =>
    refine spends_unit hl ?_ (of_decide_eq_true rfl)
    simp [DeclPart.expand, Step.plain, Expected.isReal, Expected.keyword, Expected.mark]
  | statement | expression | literal | query | search =>
    exact (spends_of_plain _ rfl p hl).mono (weight_le _) (Nat.zero_le _)

/-- The fuel of an entry is enough, so it ends with all of its steps performed. -/
theorem run_finished {p : Parser} (hl : Listener.stopsAt p.listeners = false) (entry : Entry) :
    ∃ q, p.run entry = (q, .finished) := by
  have h : Spends 145 0 [entry.step] { p with tree := Builder.empty, recovering := false } :=
    spends_entry entry hl
  obtain ⟨n, q, hn, hle⟩ := h
  have hfuel : n ≤ p.fuel := by
    have h1 : left { p with tree := Builder.empty, recovering := false } = p.left := rfl
    have h2 : p.fuel = 1024 * (p.left + 1) := rfl
    split at hle <;> omega
  obtain ⟨k, hk⟩ := Nat.exists_eq_add_of_le hfuel
  refine ⟨q, ?_⟩
  rw [run, hk]
  exact runWithin_add hn nofun k

end ApexSyntax.Parser
