-- What a parser does during a call, one deed after the other: it reads tokens,
-- matched or skipped, and reports errors. A call is followed step by step, up to
-- its end or to the error that a listener throws.
import ApexSyntax.Proofs.Lexer.Places
import ApexSyntax.Proofs.Parser.FailFast
import ApexSyntax.Proofs.Parser.Leaves

namespace ApexSyntax

/-! ## Deeds -/

/-- Something that a parser does. -/
inductive Deed where
  /-- A token becomes a leaf. -/
  | reads (leaf : Leaf)
  /-- An error is reported at a token. -/
  | reports (t : Token)

namespace Deed

/-- A token is matched, and not skipped. -/
def isMatch : Deed → Bool
  | reads l => !l.isSkipped
  | reports _ => false

def leaf? : Deed → Option Leaf
  | reads l => some l
  | reports _ => none

def reported? : Deed → Option Token
  | reads _ => none
  | reports t => some t

@[simp] theorem filterMap_leaf_reads (ls : List Leaf) : (ls.map reads).filterMap leaf? = ls := by
  induction ls with
  | nil => rfl
  | cons l ls ih => simp [leaf?, ih]

@[simp] theorem filterMap_reported_reads (ls : List Leaf) :
    (ls.map reads).filterMap reported? = [] := by
  induction ls with
  | nil => rfl
  | cons l ls ih => simp [reported?]

end Deed

namespace Parser

/-- The parser as a call starts from it. -/
def fresh (p : Parser) : Parser := { p with tree := Builder.empty, recovering := false }

/-- What was done between two parsers: one more error was reported at the current
token, and new leaves were read. No step does both. -/
def deeds (p q : Parser) : List Deed :=
  (if q.errorCount = p.errorCount then [] else [.reports p.current]) ++
    (q.tree.leaves.drop p.tree.leaves.length).map .reads

theorem deeds_of_leaves {p q : Parser} {ls : List Leaf} (he : q.errorCount = p.errorCount)
    (hl : q.tree.leaves = p.tree.leaves ++ ls) : deeds p q = ls.map .reads := by
  rw [deeds, if_pos he, hl]
  simp

theorem deeds_eq_nil {p q : Parser} (he : q.errorCount = p.errorCount)
    (hl : q.tree.leaves = p.tree.leaves) : deeds p q = [] := by
  rw [deeds, if_pos he, hl]
  simp

theorem deeds_report {p : Parser} (hr : p.recovering = false) (message : String) :
    deeds p (p.report message).1 = [.reports p.current] := by
  rw [deeds, if_neg, tree_report]
  · simp
  · rw [errorCount_report, hr]
    simp

theorem leaves_skip (p : Parser) : p.skip.tree.leaves = p.tree.leaves ++ [⟨p.current, true⟩] :=
  Builder.leaves_add _ _

theorem deeds_skip (p : Parser) : deeds p p.skip = [.reads ⟨p.current, true⟩] :=
  deeds_of_leaves (errorCount_skip p) (leaves_skip p)

@[simp] theorem errorCount_takeMany (p : Parser) (n : Nat) :
    (p.takeMany n).errorCount = p.errorCount := by
  induction n generalizing p with
  | zero => rfl
  | succ n ih => exact ih p.take

@[simp] theorem listeners_takeMany (p : Parser) (n : Nat) :
    (p.takeMany n).listeners = p.listeners := by
  induction n generalizing p with
  | zero => rfl
  | succ n ih => exact ih p.take

@[simp] theorem recovering_takeMany (p : Parser) (n : Nat) :
    (p.takeMany (n + 1)).recovering = false := by
  induction n generalizing p with
  | zero => rfl
  | succ n ih => exact ih p.take

theorem exists_leaves_takeMany (p : Parser) (n : Nat) : ∃ ls : List Leaf,
    (p.takeMany n).tree.leaves = p.tree.leaves ++ ls ∧ ls.length = n ∧
      ∀ l ∈ ls, l.isSkipped = false := by
  induction n generalizing p with
  | zero => exact ⟨[], by simp [takeMany], rfl, by simp⟩
  | succ n ih =>
    obtain ⟨ls, hl, hn, hall⟩ := ih p.take
    refine ⟨⟨p.current, false⟩ :: ls, ?_, by rw [List.length_cons, hn], by simpa using hall⟩
    rw [takeMany, hl, tree_take, Builder.leaves_add]
    simp

/-- Tokens that are taken are matched leaves, and nothing else is done. -/
theorem exists_deeds_takeMany (p : Parser) (n : Nat) : ∃ ls : List Leaf,
    deeds p (p.takeMany n) = ls.map .reads ∧ (p.takeMany n).tree.leaves = p.tree.leaves ++ ls ∧
      ls.length = n ∧ ∀ l ∈ ls, l.isSkipped = false := by
  obtain ⟨ls, hl, hn, hall⟩ := exists_leaves_takeMany p n
  exact ⟨ls, deeds_of_leaves (errorCount_takeMany p n) hl, hl, hn, hall⟩

/-! ## Silence -/

/-- Nothing is reported, and nothing was skipped since a report. -/
structure Quietly (p q : Parser) : Prop where
  stream : q.stream = p.stream
  listeners : q.listeners = p.listeners
  errorCount : q.errorCount = p.errorCount
  recovering : p.recovering = false → q.recovering = false

namespace Quietly

variable {p q r : Parser}

theorem refl (p : Parser) : Quietly p p := ⟨rfl, rfl, rfl, id⟩

theorem trans (h : Quietly p q) (h' : Quietly q r) : Quietly p r where
  stream := h'.stream.trans h.stream
  listeners := h'.listeners.trans h.listeners
  errorCount := h'.errorCount.trans h.errorCount
  recovering := h'.recovering ∘ h.recovering

theorem build (p : Parser) (f : Builder → Builder) : Quietly p (p.build f) := ⟨rfl, rfl, rfl, id⟩

theorem take (p : Parser) : Quietly p p.take := ⟨rfl, rfl, rfl, fun _ => rfl⟩

theorem skip (p : Parser) : Quietly p p.skip := ⟨rfl, rfl, rfl, id⟩

theorem takeMany (p : Parser) (n : Nat) : Quietly p (p.takeMany n) := by
  induction n generalizing p with
  | zero => exact refl p
  | succ n ih => exact (take p).trans (ih p.take)

end Quietly

/-! ## What a step does -/

/-- The step matches the end of the text. -/
def MatchesEnd (p : Parser) : Step → Prop
  | .take n => 0 < n ∧ p.current.isEof = true
  | .endOfText => p.current.isEof = true
  | .expect e | .expectThen e _ => e.accepts p.current = true ∧ p.current.isEof = true
  | _ => False

/-- What a step may do, whoever listens and whatever it leads to. -/
inductive Effect (p : Parser) (s : Step) (p' : Parser) : Prop
  | quiet : p'.recovering = p.recovering → p'.position = p.position →
      p'.errorCount = p.errorCount → p'.listeners = p.listeners →
      p'.tree.leaves = p.tree.leaves → Effect p s p'
  | reports (message : String) : p.recovering = false → p' = (p.report message).1 →
      Effect p s p'
  | takes (n : Nat) : (p.current.isEof = true → MatchesEnd p s) → p' = p.takeMany (n + 1) →
      Effect p s p'
  | skips : SkipsAt p s → p' = p.skip → Effect p s p'

section Effects

variable {p p' : Parser} {s : Step}

theorem effect_build {f : Builder → Builder} (h : (f p.tree).leaves = p.tree.leaves) :
    Effect p s (p.build f) :=
  .quiet rfl rfl rfl rfl h

theorem effect_self : Effect p s p := .quiet rfl rfl rfl rfl rfl

theorem effect_report (message : String) : Effect p s (p.report message).1 := by
  by_cases hr : p.recovering = true
  · have h : (p.report message).1 = p := by rw [report, if_pos hr]
    rw [h]
    exact effect_self
  · exact .reports message (Bool.eq_false_iff.2 hr) rfl

theorem fst_reportThen (message : String) (steps : List Step) :
    (p.reportThen message steps).1 = (p.report message).1 := by
  unfold reportThen
  split <;> rename_i h <;> rw [h]

theorem effect_expect {e : Expected} {next : List Step}
    (h : e.accepts p.current = true → p.current.isEof = true → MatchesEnd p s) :
    Effect p s (p.expect e next).1 := by
  simp only [expect]
  split
  · exact .takes 0 (h ‹_›) rfl
  · split
    · rw [fst_reportThen]
      exact effect_report _
    · rw [fst_reportThen]
      exact effect_report _

theorem effect_perform (p : Parser) (s : Step) : Effect p s (p.perform s).1 := by
  cases s with
  | start r => exact effect_build (f := (·.start r)) (by simp)
  | wrap mark r => exact effect_build (f := (·.wrap mark r)) (by simp)
  | finish => exact effect_build (f := (·.finish)) (by simp)
  | take n =>
    cases n with
    | zero => exact effect_self
    | succ n => exact .takes n (fun he => ⟨Nat.succ_pos n, he⟩) rfl
  | takeIf m =>
    by_cases hm : p.lookahead.atMark m = true
    · have h : (p.perform (.takeIf m)).1 = p.takeMany 1 := by
        simp only [perform]
        rw [if_pos hm]
        rfl
      refine .takes 0 (fun he => ?_) h
      -- The end of the text is no mark.
      rw [Token.isEof, beq_iff_eq, ← kind_lookahead] at he
      simp [Lookahead.atMark, he] at hm
    · have h : (p.perform (.takeIf m)).1 = p := by
        simp only [perform]
        rw [if_neg hm]
      rw [h]
      exact effect_self
  | skip => exact .skips trivial rfl
  | progress since =>
    by_cases hp : p.position = since
    · exact .skips hp (by simp only [perform]; rw [if_pos hp])
    · have h : (p.perform (.progress since)).1 = p := by
        simp only [perform]
        rw [if_neg hp]
      rw [h]
      exact effect_self
  | expect e => exact effect_expect fun ha he => ⟨ha, he⟩
  | expectThen e next => exact effect_expect fun ha he => ⟨ha, he⟩
  | complain c =>
    rw [perform, fst_reportThen]
    exact effect_report _
  | endOfText =>
    by_cases he : p.current.isEof = true
    · exact .takes 0 (fun _ => he) (by rw [perform, if_pos he]; rfl)
    · rw [perform, if_neg he, fst_reportThen]
      exact effect_report _
  | skipRest =>
    by_cases he : p.current.isEof = true
    · rw [perform, if_pos he]
      exact effect_self
    · exact .skips (Bool.eq_false_iff.2 he) (by rw [perform, if_neg he])
  | typ | expr | soql | stmt | decl => exact effect_self

theorem reportThen_error {message : String} {steps : List Step} {e : SyntaxError}
    (h : p.reportThen message steps = (p', .error e)) : p.report message = (p', some e) := by
  unfold reportThen at h
  split at h
  · rename_i hq
    cases h
    exact hq
  · cases h

theorem expect_error {x : Expected} {next : List Step} {e : SyntaxError}
    (h : p.expect x next = (p', .error e)) : ∃ message, p.report message = (p', some e) := by
  simp only [expect] at h
  split at h
  · cases h
  · split at h
    · exact ⟨_, reportThen_error h⟩
    · exact ⟨_, reportThen_error h⟩

/-- A step that throws has reported the error that it throws. -/
theorem perform_error {e : SyntaxError} (h : p.perform s = (p', .error e)) :
    ∃ message, p.report message = (p', some e) := by
  cases s with
  | expect x => exact expect_error h
  | expectThen x next => exact expect_error h
  | complain c => exact ⟨_, reportThen_error h⟩
  | endOfText =>
    simp only [perform] at h
    split at h
    · cases h
    · exact ⟨_, reportThen_error h⟩
  | skipRest =>
    simp only [perform] at h
    split at h <;> cases h
  | _ => cases h

theorem moves_step (p : Parser) (s : Step) : Moves p (p.perform s).1 := by
  rcases h : p.perform s with ⟨p', ⟨e⟩ | ⟨more⟩⟩
  · obtain ⟨message, hm⟩ := perform_error h
    have := moves_report p message
    rwa [hm] at this
  · exact moves_perform h

end Effects

/-! ## Calls, step by step -/

/-- What is left to do behind a step: what it leads to, and then the rest. An
error that is thrown leaves nothing. -/
def remaining (p : Parser) (s : Step) (rest : List Step) : List Step :=
  match (p.perform s).2 with
  | .ok more => more ++ rest
  | .error _ => []

/-- Step by step, some steps and a parser come to other steps that are left, and
to the parser that performs them, with what was done on the way. -/
inductive Reaches : List Step → Parser → List Deed → List Step → Parser → Prop
  | refl (ss : List Step) (p : Parser) : Reaches ss p [] ss p
  | step {s : Step} {rest ss : List Step} {p q : Parser} {h : List Deed} :
      Reaches (p.remaining s rest) (p.perform s).1 h ss q →
      Reaches (s :: rest) p (deeds p (p.perform s).1 ++ h) ss q

theorem remaining_of_ok {p p' : Parser} {s : Step} {more : List Step}
    (h : p.perform s = (p', .ok more)) (rest : List Step) :
    p.remaining s rest = more ++ rest := by
  rw [remaining, h]

theorem remaining_of_error {p p' : Parser} {s : Step} {e : SyntaxError}
    (h : p.perform s = (p', .error e)) (rest : List Step) : p.remaining s rest = [] := by
  rw [remaining, h]

/-- A run that is not cut short comes to its last parser. -/
theorem reaches_of_runWithin {n : Nat} {ss : List Step} {p q : Parser} {ending : Ending}
    (h : runWithin n ss p = (q, ending)) (hne : ending ≠ .exhausted) :
    ∃ hist, Reaches ss p hist [] q := by
  induction n generalizing ss p with
  | zero =>
    cases ss with
    | nil => cases h; exact ⟨[], .refl _ _⟩
    | cons s ss => cases h; exact absurd rfl hne
  | succ n ih =>
    cases ss with
    | nil => cases h; exact ⟨[], .refl _ _⟩
    | cons s ss =>
      suffices hnext : ∃ hist, Reaches (p.remaining s ss) (p.perform s).1 hist [] q by
        obtain ⟨hist, hr⟩ := hnext
        exact ⟨_, .step hr⟩
      rw [runWithin] at h
      split at h
      · rename_i hp
        rw [remaining_of_ok hp, hp]
        exact ih h
      · rename_i hp
        cases h
        rw [remaining_of_error hp, hp]
        exact ⟨[], .refl _ _⟩

/-- A law of the next step, of the steps behind it and of the parser holds
wherever a call may come. -/
def Always (law : Step → List Step → Parser → Prop) (ss : List Step) (p : Parser) : Prop :=
  ∀ h s rest q, Reaches ss p h (s :: rest) q → law s rest q

namespace Reaches

variable {ss ss' : List Step} {p q : Parser} {h : List Deed}

/-- What every step keeps that is performed by a law is kept by calls that keep
to the law. -/
theorem invariant (Inv : List Deed → List Step → Parser → Prop)
    {law : Step → List Step → Parser → Prop}
    (step : ∀ h s rest p, law s rest p → Inv h (s :: rest) p →
      Inv (h ++ deeds p (p.perform s).1) (p.remaining s rest) (p.perform s).1)
    (hr : Reaches ss p h ss' q) (hlaw : Always law ss p) (hi : Inv [] ss p) : Inv h ss' q := by
  suffices hfrom : ∀ before, Inv before ss p → Inv (before ++ h) ss' q from hfrom [] hi
  clear hi
  induction hr with
  | refl =>
    intro before hi
    rwa [List.append_nil]
  | step _ ih =>
    intro before hi
    rw [← List.append_assoc]
    apply ih
    · intro h s rest q hr
      exact hlaw _ _ _ _ (.step hr)
    · exact step _ _ _ _ (hlaw _ _ _ _ (.refl _ _)) hi

/-- What every step keeps is kept by every call. -/
theorem keeps (Inv : List Deed → Parser → Prop)
    (step : ∀ h s p, Inv h p → Inv (h ++ deeds p (p.perform s).1) (p.perform s).1)
    (hr : Reaches ss p h ss' q) (hi : Inv [] p) : Inv h q := by
  have hany : Always (fun _ _ _ => True) ss p := fun _ _ _ _ _ => trivial
  exact invariant (fun h _ r => Inv h r) (fun h s _ p _ => step h s p) hr hany hi

theorem moves (hr : Reaches ss p h ss' q) : Moves p q :=
  keeps (fun _ r => Moves p r) (fun _ s r hm => hm.trans (moves_step r s)) hr (.refl p)

/-- The leaves that are read are added to the tree in their order. -/
theorem leaves (hr : Reaches ss p h ss' q) :
    q.tree.leaves = p.tree.leaves ++ h.filterMap Deed.leaf? := by
  refine keeps (fun h r => r.tree.leaves = p.tree.leaves ++ h.filterMap Deed.leaf?) ?_ hr (by simp)
  intro h s r hi
  rw [List.filterMap_append, ← List.append_assoc, ← hi]
  cases effect_perform r s with
  | quiet _ _ he _ hl => rw [deeds_eq_nil he hl, hl]; simp
  | reports m hrec heq => rw [heq, deeds_report hrec, tree_report]; simp [Deed.leaf?]
  | takes n _ heq =>
    obtain ⟨ls, hd, hl, _⟩ := exists_deeds_takeMany r (n + 1)
    rw [heq, hd, hl, Deed.filterMap_leaf_reads]
  | skips _ heq => rw [heq, deeds_skip]; simp [Deed.leaf?]

/-- Every report is an error at its token, and all listeners hear the errors in
their order. -/
theorem heard (hr : Reaches ss p h ss' q) : ∃ es : List SyntaxError,
    q.listeners = Listener.hearEach es p.listeners ∧
      q.errorCount = p.errorCount + es.length ∧
      es.map SyntaxError.place = (h.filterMap Deed.reported?).map Token.place := by
  refine keeps (fun h r => ∃ es : List SyntaxError,
    r.listeners = Listener.hearEach es p.listeners ∧ r.errorCount = p.errorCount + es.length ∧
      es.map SyntaxError.place = (h.filterMap Deed.reported?).map Token.place) ?_ hr
    ⟨[], rfl, rfl, rfl⟩
  rintro h s r ⟨es, hl, hc, hes⟩
  have same : ∀ {r' : Parser}, r'.errorCount = r.errorCount → r'.listeners = r.listeners →
      (deeds r r').filterMap Deed.reported? = [] →
      ∃ es : List SyntaxError, r'.listeners = Listener.hearEach es p.listeners ∧
        r'.errorCount = p.errorCount + es.length ∧
        es.map SyntaxError.place =
          ((h ++ deeds r r').filterMap Deed.reported?).map Token.place := by
    intro r' he hls hd
    refine ⟨es, by rw [hls, hl], by rw [he, hc], ?_⟩
    rw [List.filterMap_append, hd, List.append_nil, hes]
  cases effect_perform r s with
  | quiet _ _ he hls hleaves => exact same he hls (by rw [deeds_eq_nil he hleaves]; rfl)
  | reports m hrec heq =>
    refine ⟨es ++ [r.errorHere m], ?_, ?_, ?_⟩
    · rw [heq, Listener.hearEach_append, ← hl]
      simp [report, hrec]
    · rw [heq, errorCount_report, hrec, hc, List.length_append]
      rfl
    · rw [heq, deeds_report hrec, List.filterMap_append, List.map_append, List.map_append, hes]
      rfl
  | takes n _ heq =>
    obtain ⟨ls, hd, _⟩ := exists_deeds_takeMany r (n + 1)
    rw [heq]
    exact same (errorCount_takeMany r _) (listeners_takeMany r _)
      (by rw [hd, Deed.filterMap_reported_reads])
  | skips _ heq =>
    rw [heq]
    exact same rfl rfl (by rw [deeds_skip]; rfl)

end Reaches

/-! ## Laws of everything that is reached -/

section Always

variable {law : Step → List Step → Parser → Prop} {ss ts : List Step} {p q : Parser}

theorem always_nil : Always law [] p := by
  intro h s rest q hr
  cases hr

theorem always_cons {s : Step} {rest : List Step} (hs : law s rest p)
    (hnext : Always law (p.remaining s rest) (p.perform s).1) : Always law (s :: rest) p := by
  intro h s' rest' q hr
  cases hr with
  | refl => exact hs
  | step hr => exact hnext _ _ _ _ hr

/-- Steps that are allowed where they are performed keep to a law, and so does
what follows them. -/
theorem always_of_leads {allowed : Parser → Step → Prop}
    (himp : ∀ r s rest, allowed r s → law s rest r) (h : Leads allowed ss p q)
    (ht : Always law ts q) : Always law (ss ++ ts) p := by
  induction h generalizing ts with
  | done _ => exact ht
  | @perform s more rest p p' q r ha hp _ _ ih1 ih2 =>
    apply always_cons (himp p s _ ha)
    rw [remaining_of_ok hp, hp]
    exact ih1 (ih2 ht)

theorem always_of_leads_all {allowed : Parser → Step → Prop}
    (himp : ∀ r s rest, allowed r s → law s rest r) (h : Leads allowed ss p q) :
    Always law ss p := by
  have hall := always_of_leads himp h always_nil
  rwa [List.append_nil] at hall

end Always

/-- A parser to which nobody listens. -/
def unheard (p : Parser) : Parser := p.withListeners []

/-- Whoever listens, a step does the same, but an error may be thrown. -/
theorem perform_unheard (p : Parser) (s : Step) :
    (p.unheard.perform s).1 = (p.perform s).1.unheard ∧
      ∀ rest, p.remaining s rest = p.unheard.remaining s rest ∨ p.remaining s rest = [] := by
  obtain ⟨r, raised, steps, hd⟩ := exists_does p s
  have h0 := hd []
  have h1 : p.perform s = _ := hd p.listeners
  rw [unheard, h1, h0]
  cases raised with
  | none =>
    refine ⟨rfl, fun rest => .inl ?_⟩
    rw [remaining_of_ok h1, remaining_of_ok h0]
  | some e =>
    refine ⟨rfl, fun rest => ?_⟩
    by_cases hl : Listener.stopsAt p.listeners = true
    · dsimp only at h1
      rw [if_pos hl] at h1
      exact .inr (remaining_of_error h1 rest)
    · dsimp only at h1
      rw [if_neg hl] at h1
      exact .inl (by rw [remaining_of_ok h1, remaining_of_ok h0])

/-- Whoever listens, the same steps are performed up to an error that is thrown. -/
theorem Reaches.unheard {ss ss' : List Step} {p q : Parser} {h : List Deed}
    (hr : Reaches ss p h ss' q) (hne : ss' ≠ []) : Reaches ss p.unheard h ss' q.unheard := by
  induction hr with
  | refl => exact .refl _ _
  | @step s rest ss' p q h hr ih =>
    obtain ⟨hp, hrem⟩ := perform_unheard p s
    have hnext := ih hne
    rcases hrem rest with heq | hnil
    · rw [heq, ← hp] at hnext
      have hstep := Reaches.step hnext
      rwa [hp] at hstep
    · rw [hnil] at hr
      cases hr
      exact absurd rfl hne

/-- A law that no listener matters to holds in every call when it holds in the
calls to which nobody listens. -/
theorem always_of_unheard (law : Step → List Step → Parser → Prop) {ss : List Step}
    {p : Parser} (himp : ∀ s rest r, law s rest r.unheard → law s rest r)
    (h : Always law ss p.unheard) : Always law ss p := by
  intro hist s rest q hr
  exact himp s rest q (h _ _ _ _ (hr.unheard (List.cons_ne_nil s rest)))

end Parser

end ApexSyntax
