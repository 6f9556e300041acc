-- Runs of the parser, read as one big step: which parser some steps lead to.
-- A law of the steps that a part consists of is a law of the part itself, so it
-- is a law of every run.
import ApexSyntax.Grammar.Parser
import ApexSyntax.Proofs.Parser.Parts

namespace ApexSyntax.Parser

/-! ## What the operations change -/

section Operations

variable (p : Parser) (f : Builder → Builder) (message : String)

@[simp] theorem stream_build : (p.build f).stream = p.stream := rfl

@[simp] theorem position_build : (p.build f).position = p.position := rfl

@[simp] theorem listeners_build : (p.build f).listeners = p.listeners := rfl

@[simp] theorem errorCount_build : (p.build f).errorCount = p.errorCount := rfl

@[simp] theorem recovering_build : (p.build f).recovering = p.recovering := rfl

@[simp] theorem tree_build : (p.build f).tree = f p.tree := rfl

@[simp] theorem stream_take : p.take.stream = p.stream := rfl

@[simp] theorem position_take : p.take.position = p.behind := rfl

@[simp] theorem listeners_take : p.take.listeners = p.listeners := rfl

@[simp] theorem errorCount_take : p.take.errorCount = p.errorCount := rfl

@[simp] theorem recovering_take : p.take.recovering = false := rfl

@[simp] theorem tree_take : p.take.tree = p.tree.add (.token p.current) := rfl

@[simp] theorem stream_skip : p.skip.stream = p.stream := rfl

@[simp] theorem position_skip : p.skip.position = p.behind := rfl

@[simp] theorem listeners_skip : p.skip.listeners = p.listeners := rfl

@[simp] theorem errorCount_skip : p.skip.errorCount = p.errorCount := rfl

@[simp] theorem recovering_skip : p.skip.recovering = p.recovering := rfl

@[simp] theorem tree_skip : p.skip.tree = p.tree.add (.skipped p.current) := rfl

@[simp] theorem stream_report : (p.report message).1.stream = p.stream := by
  unfold report; split <;> rfl

@[simp] theorem position_report : (p.report message).1.position = p.position := by
  unfold report; split <;> rfl

@[simp] theorem tree_report : (p.report message).1.tree = p.tree := by
  unfold report; split <;> rfl

/-- After a report the parser recovers, whether it did before or not. -/
@[simp] theorem recovering_report : (p.report message).1.recovering = true := by
  unfold report
  split
  · assumption
  · rfl

theorem errorCount_report :
    (p.report message).1.errorCount = if p.recovering then p.errorCount else p.errorCount + 1 := by
  unfold report; split <;> rfl

@[simp] theorem stopsAt_report :
    Listener.stopsAt (p.report message).1.listeners = Listener.stopsAt p.listeners := by
  unfold report
  split
  · rfl
  · exact Listener.stopsAt_hearAll _ _

end Operations

/-! ## The current token -/

theorem current_eq (p : Parser) : p.current = p.stream.nth p.position := rfl

theorem isEof_current_iff (p : Parser) :
    p.current.isEof = true ↔ p.stream.visible.size ≤ p.position := by
  unfold Token.isEof
  rw [beq_iff_eq]
  exact p.stream.kind_nth_eq_eof_iff p.position

theorem kind_lookahead (p : Parser) : p.lookahead.kind 0 = p.current.kind := rfl

theorem kind_ne_eof_iff (p : Parser) :
    p.lookahead.kind 0 ≠ .eof ↔ p.position < p.stream.visible.size := by
  rw [← Nat.not_le, ← isEof_current_iff]
  simp [Token.isEof, kind_lookahead]

/-- The end is never read over. -/
theorem behind_of_eof {p : Parser} (h : p.current.isEof = true) : p.behind = p.position := by
  simp [behind, h]

theorem behind_of_lt {p : Parser} (h : p.position < p.stream.visible.size) :
    p.behind = p.position + 1 := by
  have : p.current.isEof = false := by
    rw [Bool.eq_false_iff, Ne, isEof_current_iff]; omega
  simp [behind, this]

/-! ## Steps that lead from one parser to another -/

/-- Performed one after the other, the steps lead from one parser to another.
No listener throws on the way, and every step is allowed where it is performed. -/
inductive Leads (allowed : Parser → Step → Prop) : List Step → Parser → Parser → Prop
  | done (p : Parser) : Leads allowed [] p p
  | perform {s : Step} {more rest : List Step} {p p' q r : Parser} :
      allowed p s → p.perform s = (p', .ok more) → Leads allowed more p' q →
      Leads allowed rest q r → Leads allowed (s :: rest) p r

/-- Steps that lead from one parser to another, whatever they are. -/
abbrev Runs : List Step → Parser → Parser → Prop := Leads fun _ _ => True

namespace Leads

variable {allowed : Parser → Step → Prop} {ss ts : List Step} {p q r : Parser}

theorem append (h : Leads allowed ss p q) (h' : Leads allowed ts q r) :
    Leads allowed (ss ++ ts) p r := by
  induction h with
  | done _ => exact h'
  | perform ha hp hm _ _ ih => exact .perform ha hp hm (ih h')

theorem cons {s : Step} (h : Leads allowed [s] p q) (h' : Leads allowed ss q r) :
    Leads allowed (s :: ss) p r := h.append h'

/-- A run of two lists of steps passes a parser between them. -/
theorem split (h : Leads allowed (ss ++ ts) p r) :
    ∃ q, Leads allowed ss p q ∧ Leads allowed ts q r := by
  induction ss generalizing p with
  | nil => exact ⟨p, .done p, h⟩
  | cons s ss ih =>
    rw [List.cons_append] at h
    cases h with
    | perform ha hp hm hr =>
      obtain ⟨q, h1, h2⟩ := ih hr
      exact ⟨q, .perform ha hp hm h1, h2⟩

/-- A run of some steps passes a parser behind the first of them. -/
theorem uncons {s : Step} (h : Leads allowed (s :: ss) p r) :
    ∃ q, Leads allowed [s] p q ∧ Leads allowed ss q r := by
  cases h with
  | perform ha hp hm hr => exact ⟨_, .perform ha hp hm (.done _), hr⟩

end Leads

/-! ## Laws of runs from laws of steps -/

/-- A relation for each step, one after the other. -/
def Chain (C : Step → Parser → Parser → Prop) : List Step → Parser → Parser → Prop
  | [], p, q => q = p
  | s :: ss, p, r => ∃ q, C s p q ∧ Chain C ss q r

namespace Chain

variable {C D : Step → Parser → Parser → Prop} {ss ts : List Step} {p r : Parser}

theorem mono (h : ∀ s p q, C s p q → D s p q) (hc : Chain C ss p r) : Chain D ss p r := by
  induction ss generalizing p with
  | nil => exact hc
  | cons s ss ih =>
    obtain ⟨q, h1, h2⟩ := hc
    exact ⟨q, h _ _ _ h1, ih h2⟩

theorem append_iff : Chain C (ss ++ ts) p r ↔ ∃ q, Chain C ss p q ∧ Chain C ts q r := by
  induction ss generalizing p with
  | nil => simp [Chain]
  | cons s ss ih =>
    constructor
    · rintro ⟨q, h1, h2⟩
      obtain ⟨q', h3, h4⟩ := ih.1 h2
      exact ⟨q', ⟨q, h1, h3⟩, h4⟩
    · rintro ⟨q', ⟨q, h1, h3⟩, h4⟩
      exact ⟨q, h1, ih.2 ⟨q', h3, h4⟩⟩

/-- What is kept from each step to the next is kept from the first to the last. -/
theorem fold {R : Parser → Parser → Prop} (refl : ∀ p, R p p)
    (trans : ∀ p q r, R p q → R q r → R p r) (h : ∀ s p q, C s p q → R p q)
    (hc : Chain C ss p r) : R p r := by
  induction ss generalizing p with
  | nil => rw [hc]; exact refl p
  | cons s ss ih =>
    obtain ⟨q, h1, h2⟩ := hc
    exact trans _ _ _ (h _ _ _ h1) (ih h2)

end Chain

namespace Leads

variable {allowed : Parser → Step → Prop} {C : Step → Parser → Parser → Prop}
  {ss : List Step} {p q : Parser}

/-- A relation that holds of an allowed step whenever it holds of the steps that
it is replaced by holds along every run. -/
theorem chain_of_allowed
    (law : ∀ {s p p' more q}, allowed p s → p.perform s = (p', .ok more) →
      Leads allowed more p' q → Chain (fun s p q => Leads allowed [s] p q ∧ C s p q) more p' q →
      C s p q)
    (h : Leads allowed ss p q) : Chain (fun s p q => Leads allowed [s] p q ∧ C s p q) ss p q := by
  induction h with
  | done _ => rfl
  | perform ha hp hm _ ih1 ih2 =>
    exact ⟨_, ⟨.perform ha hp hm (.done _), law ha hp hm ih1⟩, ih2⟩

/-- A relation that holds of a step whenever it holds of the steps that it is
replaced by holds along every run. -/
theorem chain
    (law : ∀ {s p p' more q}, p.perform s = (p', .ok more) → Leads allowed more p' q →
      Chain (fun s p q => Leads allowed [s] p q ∧ C s p q) more p' q → C s p q)
    (h : Leads allowed ss p q) : Chain (fun s p q => Leads allowed [s] p q ∧ C s p q) ss p q :=
  h.chain_of_allowed fun _ => law

/-- What every single step keeps is kept by every run. -/
theorem keeps {R : Parser → Parser → Prop} (refl : ∀ p, R p p)
    (trans : ∀ p q r, R p q → R q r → R p r)
    (step : ∀ s p p' more, allowed p s → p.perform s = (p', .ok more) → R p p')
    (h : Leads allowed ss p q) : R p q := by
  induction h with
  | done p => exact refl p
  | perform ha hp _ _ ih1 ih2 =>
    exact trans _ _ _ (step _ _ _ _ ha hp) (trans _ _ _ ih1 ih2)

end Leads

/-! ## What a step may do -/

theorem reportThen_ok {p p' : Parser} {message : String} {steps more : List Step}
    (h : p.reportThen message steps = (p', .ok more)) :
    p' = (p.report message).1 ∧ more = steps := by
  unfold reportThen at h
  split at h
  · cases h
  · rename_i q hq
    cases h
    exact ⟨by rw [hq], rfl⟩

/-- An expected token is matched, or something is reported. After a report the
expected token may stand behind the current one, which is skipped then. -/
theorem expect_ok {p p' : Parser} {e : Expected} {next more : List Step}
    (h : p.expect e next = (p', .ok more)) :
    (e.accepts p.current = true ∧ p' = p.take ∧ more = next) ∨
    (p.current.isEof = false ∧ e.accepts (p.lookahead.nth 1) = true ∧
      (∃ m, p' = (p.report m).1) ∧ more = .skip :: .take 1 :: next) ∨
    ((∃ m, p' = (p.report m).1) ∧ more = []) := by
  simp only [expect] at h
  split at h
  · cases h
    exact .inl ⟨‹_›, rfl, rfl⟩
  · split at h
    · rename_i _ hd
      simp only [Bool.and_eq_true, Bool.not_eq_true'] at hd
      obtain ⟨hp, hm⟩ := reportThen_ok h
      exact .inr (.inl ⟨hd.1, hd.2, ⟨_, hp⟩, hm⟩)
    · obtain ⟨hp, hm⟩ := reportThen_ok h
      exact .inr (.inr ⟨⟨_, hp⟩, hm⟩)

/-- The step skips the current token of the parser. -/
def SkipsAt (p : Parser) : Step → Prop
  | .skip => True
  | .progress since => p.position = since
  | .skipRest => p.current.isEof = false
  | _ => False

/-- A relation that is kept by whatever a step may do, apart from skipping. -/
structure Kept (R : Parser → Parser → Prop) : Prop where
  refl (p : Parser) : R p p
  trans {p q r : Parser} : R p q → R q r → R p r
  take (p : Parser) : R p p.take
  report (p : Parser) (message : String) : R p (p.report message).1
  start (p : Parser) (r : Rule) : R p (p.build (·.start r))
  wrap (p : Parser) (mark : Nat) (r : Rule) : R p (p.build (·.wrap mark r))
  finish (p : Parser) : R p (p.build (·.finish))

namespace Kept

variable {R : Parser → Parser → Prop} {p p' : Parser} {more : List Step}

theorem takeMany (k : Kept R) (p : Parser) (n : Nat) : R p (p.takeMany n) := by
  induction n generalizing p with
  | zero => exact k.refl p
  | succ n ih => exact k.trans (k.take p) (ih p.take)

theorem expect (k : Kept R) {e : Expected} {next : List Step}
    (h : p.expect e next = (p', .ok more)) : R p p' := by
  rcases expect_ok h with ⟨_, rfl, _⟩ | ⟨_, _, ⟨m, rfl⟩, _⟩ | ⟨⟨m, rfl⟩, _⟩
  · exact k.take p
  · exact k.report p m
  · exact k.report p m

theorem perform (k : Kept R) {s : Step} (h : p.perform s = (p', .ok more))
    (skip : SkipsAt p s → R p p.skip) : R p p' := by
  cases s with
  | start r => cases h; exact k.start p r
  | wrap mark r => cases h; exact k.wrap p mark r
  | finish => cases h; exact k.finish p
  | take n => cases h; exact k.takeMany p n
  | takeIf m =>
    cases h
    split
    · exact k.take p
    · exact k.refl p
  | skip => cases h; exact skip trivial
  | progress since =>
    cases h
    split
    · exact skip ‹_›
    · exact k.refl p
  | expect e => exact k.expect h
  | expectThen e next => exact k.expect h
  | complain c =>
    obtain ⟨rfl, _⟩ := reportThen_ok h
    exact k.report p _
  | endOfText =>
    simp only [Parser.perform] at h
    split at h
    · cases h; exact k.take p
    · obtain ⟨rfl, _⟩ := reportThen_ok h
      exact k.report p _
  | skipRest =>
    simp only [Parser.perform] at h
    split at h
    · cases h; exact k.refl p
    · rename_i hn
      cases h
      exact skip (Bool.eq_false_iff.2 hn)
  | typ | expr | soql | stmt | decl => cases h; exact k.refl p

end Kept

/-- A parser moves on over the same tokens: never back, and never past the end. -/
structure Moves (p q : Parser) : Prop where
  stream : q.stream = p.stream
  position_le : p.position ≤ q.position
  within : q.position = p.position ∨ q.position ≤ p.stream.visible.size
  errorCount_le : p.errorCount ≤ q.errorCount
  stops : Listener.stopsAt q.listeners = Listener.stopsAt p.listeners

namespace Moves

theorem refl (p : Parser) : Moves p p := ⟨rfl, Nat.le_refl _, .inl rfl, Nat.le_refl _, rfl⟩

theorem trans {p q r : Parser} (h : Moves p q) (h' : Moves q r) : Moves p r where
  stream := h'.stream.trans h.stream
  position_le := Nat.le_trans h.position_le h'.position_le
  within := by
    rcases h'.within with h1 | h1
    · rw [h1]; exact h.within
    · rw [h.stream] at h1; exact .inr h1
  errorCount_le := Nat.le_trans h.errorCount_le h'.errorCount_le
  stops := h'.stops.trans h.stops

end Moves

theorem behind_le (p : Parser) :
    p.position ≤ p.behind ∧ (p.behind = p.position ∨ p.behind ≤ p.stream.visible.size) := by
  by_cases h : p.position < p.stream.visible.size
  · rw [behind_of_lt h]; omega
  · rw [behind_of_eof ((isEof_current_iff p).2 (by omega))]; omega

theorem moves_take (p : Parser) : Moves p p.take :=
  ⟨rfl, (behind_le p).1, (behind_le p).2, Nat.le_refl _, rfl⟩

theorem moves_skip (p : Parser) : Moves p p.skip :=
  ⟨rfl, (behind_le p).1, (behind_le p).2, Nat.le_refl _, rfl⟩

theorem moves_report (p : Parser) (message : String) : Moves p (p.report message).1 where
  stream := stream_report p message
  position_le := Nat.le_of_eq (position_report p message).symm
  within := .inl (position_report p message)
  errorCount_le := by rw [errorCount_report]; split <;> omega
  stops := stopsAt_report p message

theorem moves_build (p : Parser) (f : Builder → Builder) : Moves p (p.build f) :=
  ⟨rfl, Nat.le_refl _, .inl rfl, Nat.le_refl _, rfl⟩

theorem moves_kept : Kept Moves where
  refl := .refl
  trans := .trans
  take := moves_take
  report := moves_report
  start p _ := moves_build p _
  wrap p _ _ := moves_build p _
  finish p := moves_build p _

theorem moves_perform {p p' : Parser} {s : Step} {more : List Step}
    (h : p.perform s = (p', .ok more)) : Moves p p' :=
  moves_kept.perform h fun _ => moves_skip p

theorem Leads.moves {allowed : Parser → Step → Prop} {ss : List Step} {p q : Parser}
    (h : Leads allowed ss p q) : Moves p q :=
  h.keeps Moves.refl (fun _ _ _ => Moves.trans) fun _ _ _ _ _ => moves_perform

/-- A run stays on its stream. -/
theorem Leads.onStream {allowed : Parser → Step → Prop} {ss : List Step} {p q : Parser}
    (h : Leads allowed ss p q) :
    Leads (fun p' st => allowed p' st ∧ p'.stream = p.stream) ss p q := by
  induction h with
  | done p => exact .done p
  | perform ha hp hm _ ih1 ih2 =>
    have h1 := (moves_perform hp).stream
    have h2 := hm.moves.stream
    rw [h1] at ih1
    rw [h2, h1] at ih2
    exact .perform ⟨ha, rfl⟩ hp ih1 ih2

/-! ## Runs with fuel -/

theorem runWithin_nil (n : Nat) (p : Parser) : runWithin n [] p = (p, .finished) := by
  cases n <;> rfl

/-- A run that ends with all of its steps performed leads to its last parser. -/
theorem leads_of_runWithin {n : Nat} {ss : List Step} {p q : Parser}
    (h : runWithin n ss p = (q, .finished)) : Runs ss p q := by
  induction n generalizing ss p with
  | zero =>
    cases ss with
    | nil => cases h; exact .done _
    | cons s ss => cases h
  | succ n ih =>
    cases ss with
    | nil => cases h; exact .done _
    | cons s ss =>
      rw [runWithin] at h
      split at h
      · rename_i p' more hp
        obtain ⟨r, h1, h2⟩ := (ih h).split
        exact .perform trivial hp h1 h2
      · cases h

/-- More fuel changes nothing about a run that ends. -/
theorem runWithin_add {n : Nat} {ss : List Step} {p q : Parser} {ending : Ending}
    (h : runWithin n ss p = (q, ending)) (hne : ending ≠ .exhausted) (k : Nat) :
    runWithin (n + k) ss p = (q, ending) := by
  induction n generalizing ss p with
  | zero =>
    cases ss with
    | nil => cases h; exact runWithin_nil _ _
    | cons s ss => cases h; exact absurd rfl hne
  | succ n ih =>
    cases ss with
    | nil => cases h; exact runWithin_nil _ _
    | cons s ss =>
      rw [Nat.succ_add, runWithin]
      rw [runWithin] at h
      split at h
      · rename_i p' more hp
        exact ih h
      · exact h

/-- Two runs that end make one. -/
theorem runWithin_append {n m : Nat} {ss ts : List Step} {p q r : Parser}
    (h : runWithin n ss p = (q, .finished)) (h' : runWithin m ts q = (r, .finished)) :
    runWithin (n + m) (ss ++ ts) p = (r, .finished) := by
  induction n generalizing ss p with
  | zero =>
    cases ss with
    | nil => cases h; rw [Nat.add_comm]; exact runWithin_add h' nofun 0
    | cons s ss => cases h
  | succ n ih =>
    cases ss with
    | nil => cases h; rw [Nat.add_comm]; exact runWithin_add h' nofun _
    | cons s ss =>
      rw [Nat.succ_add, List.cons_append, runWithin]
      rw [runWithin] at h
      split at h
      · rename_i p' more hp
        rw [← List.append_assoc]
        exact ih h
      · cases h

end ApexSyntax.Parser
