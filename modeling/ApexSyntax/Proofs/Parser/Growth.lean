-- The law of growth: what each step does to the tree, with the symbols that derive
-- what it adds and the productions that fit its nodes. A run that reports nothing
-- is calm: each expected token is there, and no complaint comes.
import ApexSyntax.Proofs.Parser.Derivations

namespace ApexSyntax.Parser

/-! ## The law -/

/-- In a calm run no step skips a token, and none reports an error. -/
def Calm (calm : Bool) (p : Parser) (s : Step) : Prop :=
  calm = true → ¬ SkipsAt p s ∧ (p.perform s).1.recovering = false

/-- An expression of a level or a tighter one, all of whose nodes fit. -/
def IsExpression (calm : Bool) (level : Int) (t : Tree) : Prop :=
  Derives [.expression level] [t] ∧ t.Everywhere (Fits calm)

/-- All nodes of the trees fit. -/
def AllFit (calm : Bool) (ts : List Tree) : Prop := ∀ t ∈ ts, t.Everywhere (Fits calm)

/-- What a step does to the tree, by its shape. -/
def Grows (calm : Bool) (s : Step) (p q : Parser) : Prop :=
  match s.shape with
  | .opens r => q.tree = p.tree.start r
  | .wraps mark r => q.tree = p.tree.wrap mark r
  | .closes => q.tree = p.tree.finish
  | .node | .trees =>
    s.opensFree = true → Adds calm (s.firmAt p.lookahead) (s.calmAt p.lookahead) p q
  | .regrows mark => ∀ (b : Builder) (t : Tree), b.mark = mark → p.tree = b.add t →
      IsExpression calm s.levels.1 t → ∃ t', q.tree = b.add t' ∧ IsExpression calm s.levels.2 t'
  | .gathers mark => ∀ (b : Builder) (ts : List Tree), b.mark = mark → p.tree = b.addAll ts →
      AllFit calm ts → ∃ ts', q.tree = b.addAll ts' ∧ AllFit calm ts'
  | .unknown => True

/-- Each step keeps to the law, one after the other. -/
abbrev GrowsAll (calm : Bool) : List Step → Parser → Parser → Prop :=
  Chain fun s p q => Leads (Calm calm) [s] p q ∧ Grows calm s p q

section Lists

variable {calm : Bool} {p p' q : Parser} {s : Step} {ss : List Step} {r : Rule}

theorem adds_of_grows (hs : s.shape.adds = true) (hf : s.opensFree = true)
    (h : Grows calm s p q) : Adds calm (s.firmAt p.lookahead) (s.calmAt p.lookahead) p q := by
  unfold Grows at h
  cases hsh : s.shape with
  | node | trees => rw [hsh] at h; exact h hf
  | _ => rw [hsh] at hs; cases hs

theorem firm_of_firmAt {v : Lookahead} {ts : List Tree} (h : Derives (s.firmAt v) ts) :
    Derives s.firm ts := by
  cases s with
  | take n => exact .anyTrees ts
  | _ => exact h

/-- What is known by the tokens ahead is a case of what is known without. -/
theorem calm_of_calmAt {v : Lookahead} {ts : List Tree} (h : Derives (s.calmAt v) ts) :
    Derives s.calm ts := by
  cases s with
  | take n => exact .anyTrees ts
  | stmt part =>
    cases part with
    | moreWhenClauses =>
      simp only [Step.calmAt] at h
      split at h
      · exact .done h
      · exact .again h
    | moreHandlers =>
      simp only [Step.calmAt] at h
      split at h
      · cases h with
        | oneOf ha h =>
          simp only [List.mem_cons, List.not_mem_nil, or_false] at ha
          rcases ha with rfl | rfl
          · exact .again h
          · exact .done (.use h)
      · exact .done (.leave h)
    | _ => exact h
  | _ => exact h

/-- The steps add finished trees, each by its symbols. -/
def adding (ss : List Step) : Bool := ss.all fun s => s.shape.adds && s.opensFree

theorem adds_all (hs : adding ss = true) (h : GrowsAll calm ss p q) :
    Adds calm (ss.flatMap Step.firm) (ss.flatMap Step.calm) p q := by
  induction ss generalizing p with
  | nil => cases h; exact .nothing rfl
  | cons s ss ih =>
    obtain ⟨p', ⟨_, h1⟩, h⟩ := h
    rw [adding, List.all_cons, Bool.and_eq_true, Bool.and_eq_true] at hs
    have ha := (adds_of_grows hs.1.1 hs.1.2 h1).mono (fun _ => firm_of_firmAt)
      (fun _ => calm_of_calmAt)
    exact ha.append (ih hs.2 h)

/-- The same, with the tokens ahead of the first step. -/
theorem adds_cons (hs : adding (s :: ss) = true) (h : GrowsAll calm (s :: ss) p q) :
    Adds calm (s.firmAt p.lookahead ++ ss.flatMap Step.firm)
      (s.calmAt p.lookahead ++ ss.flatMap Step.calm) p q := by
  obtain ⟨p', ⟨_, h1⟩, h⟩ := h
  rw [adding, List.all_cons, Bool.and_eq_true, Bool.and_eq_true] at hs
  exact (adds_of_grows hs.1.1 hs.1.2 h1).append (adds_all hs.2 h)

/-- A node around some steps is added when its children fit. -/
theorem adds_node {fs gs : List Symbol} (h : GrowsAll calm (.start r :: ss ++ [Step.finish]) p q)
    (hbody : ∀ p' q', p'.lookahead = p.lookahead → GrowsAll calm ss p' q' →
      Adds calm fs gs p' q')
    (hfit : ∀ ts, Derives fs ts → (calm = true → Derives gs ts) → Fits calm r ts) :
    Adds calm [.node r] [.node r] p q := by
  obtain ⟨p', ⟨hl, hp'⟩, h⟩ := h
  obtain ⟨q', h1, q, ⟨_, hq⟩, rfl⟩ := Chain.append_iff.1 h
  have hl' : p' = p.build (·.start r) := hl.single rfl
  exact .node hp' (hbody p' q' (by rw [hl']; rfl) h1) hq hfit

end Lists

/-! ## Nodes that may have any children -/

section Free

variable {calm : Bool} {p q : Parser} {ss : List Step} {b c : Builder} {d : Nat}

/-- A tree that stands a number of open free nodes above a base. All that was added
fits. -/
inductive Grown (calm : Bool) (b : Builder) : Nat → Builder → Prop
  | base {ts : List Tree} : AllFit calm ts → Grown calm b 0 (b.addAll ts)
  | opened {d : Nat} {c : Builder} {r : Rule} {ts : List Tree} :
      r.isFree = true → AllFit calm ts → Grown calm b d c →
      Grown calm b (d + 1) ((c.start r).addAll ts)

theorem AllFit.append {ts us : List Tree} (h : AllFit calm ts) (h' : AllFit calm us) :
    AllFit calm (ts ++ us) :=
  List.forall_mem_append.2 ⟨h, h'⟩

theorem allFit_singleton {t : Tree} (h : t.Everywhere (Fits calm)) : AllFit calm [t] :=
  List.forall_mem_singleton.2 h

namespace Grown

theorem addAll {ts : List Tree} (h : Grown calm b d c) (ht : AllFit calm ts) :
    Grown calm b d (c.addAll ts) := by
  cases h with
  | base hu => rw [← Builder.addAll_append]; exact .base (hu.append ht)
  | opened hr hu h => rw [← Builder.addAll_append]; exact .opened hr (hu.append ht) h

theorem start {r : Rule} (h : Grown calm b d c) (hr : r.isFree = true) :
    Grown calm b (d + 1) (c.start r) := .opened hr (fun _ hm => absurd hm List.not_mem_nil) h

theorem finish (h : Grown calm b (d + 1) c) : Grown calm b d c.finish := by
  cases h with
  | opened hr ht h =>
    rw [Builder.finish_addAll_start]
    exact h.addAll (allFit_singleton (.node (fits_of_isFree hr _ _) ht))

end Grown

theorem eq_start_of_shape {s : Step} {r : Rule} (h : s.shape = .opens r) : s = .start r := by
  unfold Step.shape at h
  split at h
  · cases h
    rfl
  · cases h
  · cases h
  · split at h <;> cases h
  all_goals cases h

theorem eq_wrap_of_shape {s : Step} {m : Nat} {r : Rule} (h : s.shape = .wraps m r) : s = .wrap m r := by
  unfold Step.shape at h
  split at h
  · cases h
  · cases h
    rfl
  · cases h
  · split at h <;> cases h
  all_goals cases h

theorem eq_finish_of_shape {s : Step} (h : s.shape = .closes) : s = .finish := by
  unfold Step.shape at h
  split at h
  · cases h
  · cases h
  · rfl
  · split at h <;> cases h
  all_goals cases h

theorem grown_of_closes (hc : closes d ss = true) (hf : ss.all Step.opensFree = true)
    (h : GrowsAll calm ss p q) (hb : Grown calm b d p.tree) : Grown calm b 0 q.tree := by
  induction ss generalizing d p with
  | nil =>
    rw [closes, beq_iff_eq] at hc
    cases h
    rwa [hc] at hb
  | cons s ss ih =>
    obtain ⟨p', ⟨_, hs⟩, h⟩ := h
    rw [List.all_cons, Bool.and_eq_true] at hf
    unfold closes at hc
    unfold Grows at hs
    split at hc
    · rename_i r hr
      have hfree : r.isFree = true := by
        rw [eq_start_of_shape hr] at hf
        exact hf.1
      rw [hr] at hs
      exact ih hc hf.2 h (hs ▸ hb.start hfree)
    · rename_i hr
      rw [hr] at hs
      exact ih hc hf.2 h (hs ▸ hb.finish)
    · rw [Bool.and_eq_true] at hc
      obtain ⟨ts, hq, _, _, ht⟩ := adds_of_grows hc.1 hf.1 hs
      exact ih hc.2 hf.2 h (hq ▸ hb.addAll ht)

/-- Balanced steps that open only free nodes add trees that fit. -/
theorem adds_of_free (hc : closes 0 ss = true) (hf : ss.all Step.opensFree = true)
    (h : GrowsAll calm ss p q) : Adds calm [.anything] [.anything] p q := by
  have hb : Grown calm p.tree 0 q.tree :=
    grown_of_closes hc hf h (.base fun _ hm => absurd hm List.not_mem_nil)
  generalize hq : q.tree = t at hb
  cases hb with
  | base ht => exact .ofTrees hq ht

/-- A free node around balanced steps is added. -/
theorem adds_freeNode {r : Rule} (ss : List Step) (hr : r.isFree = true)
    (hc : closes 0 ss = true) (hf : ss.all Step.opensFree = true)
    (h : GrowsAll calm (.start r :: ss ++ [Step.finish]) p q) :
    Adds calm [.node r] [.node r] p q :=
  adds_node h (fun _ _ _ => adds_of_free hc hf) fun ts _ _ => fits_of_isFree hr calm ts

end Free

end ApexSyntax.Parser
