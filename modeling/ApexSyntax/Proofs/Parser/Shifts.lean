-- Shifts in trees. A shift is written with two or three angles, and every tree has them
-- one behind the other, with no token between. What a node holds is known when it is
-- closed, so the law follows the open nodes: no step but that of the operators opens the
-- node of a shift, and all other steps close the nodes that they open.
import ApexSyntax.Proofs.Lexer.Touching
import ApexSyntax.Proofs.Parser.Grammatical

namespace ApexSyntax

/-! ## Builders all of whose trees keep a law -/

namespace Builder

/-- The rules of the open nodes, the innermost first. -/
def rules (b : Builder) : List Rule := b.frames.map Frame.rule

/-- All finished trees are of a kind. -/
def All (P : Tree → Prop) (b : Builder) : Prop :=
  (∀ t ∈ b.ground, P t) ∧ ∀ f ∈ b.frames, ∀ t ∈ f.children, P t

variable {P : Tree → Prop} {b : Builder} {t : Tree}

@[simp] theorem rules_add (b : Builder) (t : Tree) : (b.add t).rules = b.rules := by
  rcases b with ⟨ground, _ | ⟨⟨r, children⟩, rest⟩⟩ <;> rfl

@[simp] theorem rules_start (b : Builder) (r : Rule) : (b.start r).rules = r :: b.rules := rfl

@[simp] theorem rules_wrap (b : Builder) (m : Nat) (r : Rule) :
    (b.wrap m r).rules = r :: b.rules := by
  rcases b with ⟨ground, _ | ⟨⟨s, children⟩, rest⟩⟩ <;> rfl

@[simp] theorem rules_finish (b : Builder) : b.finish.rules = b.rules.tail := by
  rcases b with ⟨ground, _ | ⟨f, rest⟩⟩
  · rfl
  · exact rules_add _ _

theorem all_empty (P : Tree → Prop) : empty.All P := ⟨by simp [empty], by simp [empty]⟩

namespace All

theorem add (h : b.All P) (ht : P t) : (b.add t).All P := by
  rcases b with ⟨ground, _ | ⟨⟨r, children⟩, rest⟩⟩
  · refine ⟨fun u hu => ?_, h.2⟩
    rcases Array.mem_push.1 hu with hu | rfl
    · exact h.1 u hu
    · exact ht
  · obtain ⟨hground, hframes⟩ := h
    rw [List.forall_mem_cons] at hframes
    refine ⟨hground, List.forall_mem_cons.2 ⟨fun u hu => ?_, hframes.2⟩⟩
    rcases Array.mem_push.1 hu with hu | rfl
    · exact hframes.1 u hu
    · exact ht

theorem start (h : b.All P) (r : Rule) : (b.start r).All P :=
  ⟨h.1, List.forall_mem_cons.2 ⟨by simp, h.2⟩⟩

theorem wrap (h : b.All P) (m : Nat) (r : Rule) : (b.wrap m r).All P := by
  -- The children behind the mark move to the new node, the others stay.
  have hextract : ∀ {us : Array Tree} {i j : Nat}, (∀ u ∈ us, P u) →
      ∀ u ∈ us.extract i j, P u := by
    intro us i j hus u hu
    rw [Array.mem_def, Array.toList_extract, List.extract_eq_take_drop] at hu
    exact hus u (Array.mem_def.2 (List.mem_of_mem_drop (List.mem_of_mem_take hu)))
  rcases b with ⟨ground, _ | ⟨⟨s, children⟩, rest⟩⟩
  · refine ⟨?_, List.forall_mem_cons.2 ⟨hextract h.1, by simp⟩⟩
    simp only [Builder.wrap, Array.shrink_eq_take, Array.take_eq_extract]
    exact hextract h.1
  · obtain ⟨hground, hframes⟩ := h
    rw [List.forall_mem_cons] at hframes
    refine ⟨hground, List.forall_mem_cons.2 ⟨hextract hframes.1,
      List.forall_mem_cons.2 ⟨?_, hframes.2⟩⟩⟩
    simp only [Array.shrink_eq_take, Array.take_eq_extract]
    exact hextract hframes.1

/-- A node may be closed when it keeps the law as far as its children do. -/
theorem finish (h : b.All P)
    (hnode : ∀ f ∈ b.frames.head?, (∀ t ∈ f.children, P t) → P (.node f.rule f.children.toList)) :
    b.finish.All P := by
  rcases b with ⟨ground, _ | ⟨f, rest⟩⟩
  · exact h
  · obtain ⟨hground, hframes⟩ := h
    rw [List.forall_mem_cons] at hframes
    exact All.add (b := ⟨ground, rest⟩) ⟨hground, hframes.2⟩ (hnode f rfl hframes.1)

end All

end Builder

/-! ## Shifts -/

/-- Two or three angles of one kind that the parser sees one behind the other, from a
position on, and whose numbers follow one another. -/
structure ShiftAt (s : TokenStream) (i n : Nat) : Prop where
  size : n = 2 ∨ n = 3
  angles : ∃ m, (m = .lt ∧ n = 2 ∨ m = .gt) ∧ ∀ k < n, (s.nth (i + k)).kind = .mark m
  touching : ∀ k, k + 1 < n → (s.nth (i + (k + 1))).index = (s.nth (i + k)).index + 1

/-- The node of a shift has two operands, and a shift between them. -/
def ShiftIn (s : TokenStream) (r : Rule) (ts : List Tree) : Prop :=
  r = .bitExpression → ∃ left right i n, ShiftAt s i n ∧
    ts = left :: ((List.range n).map fun k => .token (s.nth (i + k))) ++ [right]

namespace ShiftAt

variable {s : TokenStream} {i n : Nat}

theorem lt_size (h : ShiftAt s i n) {k : Nat} (hk : k < n) : i + k < s.visible.size := by
  obtain ⟨m, _, hm⟩ := h.angles
  rw [← Nat.not_le, ← s.kind_nth_eq_eof_iff, hm k hk]
  exact fun he => by cases he

theorem within (h : ShiftAt s i n) : i + n ≤ s.visible.size := by
  have hpos : 0 < n := by
    have := h.size
    omega
  have := h.lt_size (k := n - 1) (by omega)
  omega

end ShiftAt

/-- The operator of a shift is one. -/
theorem Lookahead.shiftAt_of_operatorAhead {v : Lookahead} {level n : Nat}
    (h : v.operatorAhead level = some (.bitExpression, n)) : ShiftAt v.stream v.position n := by
  have hkind : ∀ {m k}, (v.kind k == .mark m) = true →
      (v.stream.nth (v.position + k)).kind = .mark m := fun h => beq_iff_eq.1 h
  have hindex : ∀ {k}, v.touches k = true → (v.stream.nth (v.position + (k + 1))).index =
      (v.stream.nth (v.position + k)).index + 1 := fun h => beq_iff_eq.1 h
  have hdoubled : ∀ {m}, v.doubled m = true →
      (∀ k < 2, (v.stream.nth (v.position + k)).kind = .mark m) ∧
      ∀ k, k + 1 < 2 → (v.stream.nth (v.position + (k + 1))).index =
        (v.stream.nth (v.position + k)).index + 1 := by
    intro m hd
    rw [doubled, Bool.and_eq_true, Bool.and_eq_true] at hd
    refine ⟨fun k hk => ?_, fun k hk => ?_⟩
    · rcases (show k = 0 ∨ k = 1 by omega) with rfl | rfl
      · exact hkind hd.1.1
      · exact hkind hd.1.2
    · obtain rfl : k = 0 := by omega
      exact hindex hd.2
  have hlevel : level = 8 := by
    have h8 : (8 : Int) = level := Option.some.inj (operatorAhead_spells h).1.level_eq
    omega
  subst hlevel
  simp only [operatorAhead] at h
  split at h
  · rename_i hd
    cases h
    obtain ⟨hm, ht⟩ := hdoubled hd
    exact ⟨.inl rfl, ⟨.lt, .inl ⟨rfl, rfl⟩, hm⟩, ht⟩
  · split at h
    · rename_i hd
      obtain ⟨hm, ht⟩ := hdoubled hd
      split at h
      · rename_i hthird
        rw [Bool.and_eq_true] at hthird
        cases h
        refine ⟨.inr rfl, ⟨.gt, .inr rfl, fun k hk => ?_⟩, fun k hk => ?_⟩
        · rcases (show k < 2 ∨ k = 2 by omega) with hlt | rfl
          · exact hm k hlt
          · exact hkind hthird.1
        · rcases (show k + 1 < 2 ∨ k = 1 by omega) with hlt | rfl
          · exact ht k hlt
          · exact hindex hthird.2
      · cases h
        exact ⟨.inl rfl, ⟨.gt, .inr rfl, hm⟩, ht⟩
    · cases h

/-! ## Steps that open no shift -/

/-- The step opens and closes no node by itself, needs no operand before it, and leads to no
step that opens a shift. -/
def Step.isShiftFree : Step → Bool
  | .start _ | .wrap .. | .finish | .expr (.operators ..) => false
  | .decl (.blockMember r) => r != .bitExpression
  | .expectThen _ next => next.isShiftFree
  | _ => true

/-- With some nodes open, the steps close these and all that they open, none of them a
shift. -/
def shiftFree : Nat → List Step → Bool
  | depth, [] => depth == 0
  | depth, s :: ss =>
    match s, depth with
    | .start r, depth | .wrap _ r, depth => r != .bitExpression && shiftFree (depth + 1) ss
    | .finish, depth + 1 => shiftFree depth ss
    | s, depth => s.isShiftFree && shiftFree depth ss

theorem shiftFree_singleton {s : Step} (h : s.isShiftFree = true) : shiftFree 0 [s] = true := by
  cases s <;> simp_all [shiftFree, Step.isShiftFree]

namespace Parser

section Law

variable {s : TokenStream} {σ τ : List Rule} {p p' q : Parser} {ss : List Step}

/-- The parser reads a stream with some nodes open, and all shifts of its trees are right. -/
structure Sound (s : TokenStream) (σ : List Rule) (p : Parser) : Prop where
  stream : p.stream = s
  rules : p.tree.rules = σ
  fits : p.tree.All fun t => t.Everywhere (ShiftIn s)

namespace Sound

theorem add {t : Tree} {f : Parser} (h : Sound s σ p) (hs : f.stream = p.stream)
    (hf : f.tree = p.tree.add t) (ht : t.Everywhere (ShiftIn s)) : Sound s σ f where
  stream := hs.trans h.stream
  rules := by rw [hf, Builder.rules_add, h.rules]
  fits := hf ▸ h.fits.add ht

theorem take (h : Sound s σ p) : Sound s σ p.take := h.add rfl rfl (.token _)

theorem skip (h : Sound s σ p) : Sound s σ p.skip := h.add rfl rfl (.skipped _)

theorem takeMany (h : Sound s σ p) (n : Nat) : Sound s σ (p.takeMany n) := by
  induction n generalizing p with
  | zero => exact h
  | succ n ih => exact ih h.take

theorem report (h : Sound s σ p) (m : String) : Sound s σ (p.report m).1 where
  stream := (stream_report p m).trans h.stream
  rules := by rw [tree_report, h.rules]
  fits := by
    rw [tree_report]
    exact h.fits

theorem start (h : Sound s σ p) (r : Rule) : Sound s (r :: σ) (p.build (·.start r)) where
  stream := h.stream
  rules := by rw [tree_build, Builder.rules_start, h.rules]
  fits := h.fits.start r

theorem wrap (h : Sound s σ p) (m : Nat) (r : Rule) :
    Sound s (r :: σ) (p.build (·.wrap m r)) where
  stream := h.stream
  rules := by rw [tree_build, Builder.rules_wrap, h.rules]
  fits := h.fits.wrap m r

/-- A node may be closed when it is no shift, or a right one. -/
theorem finish {r : Rule} (h : Sound s (r :: σ) p)
    (hr : ∀ f ∈ p.tree.frames.head?, ShiftIn s f.rule f.children.toList) :
    Sound s σ (p.build (·.finish)) where
  stream := h.stream
  rules := by rw [tree_build, Builder.rules_finish, h.rules, List.tail_cons]
  fits := h.fits.finish fun f hf hts => .node (hr f hf) (by simpa using hts)

/-- A node that is no shift may be closed. -/
theorem finish_of_ne {r : Rule} (h : Sound s (r :: σ) p) (hr : r ≠ .bitExpression) :
    Sound s σ (p.build (·.finish)) := by
  refine h.finish fun f hf hbit => ?_
  obtain ⟨rest, hrest⟩ := List.head?_eq_some_iff.1 hf
  have hrules := h.rules
  rw [Builder.rules, hrest, List.map_cons, List.cons.injEq] at hrules
  exact absurd (hrules.1.symm.trans hbit) hr

end Sound

/-! ## The law of shifts -/

/-- What a step keeps: no node is open that was not before, and all shifts are right. The
operators of a level need the operand before them. -/
def StaysSound (s : TokenStream) : Step → Parser → Parser → Prop
  | .expr (.operators _ m), p, q => ∀ (σ : List Rule) (b : Builder) (r : Rule) (ts : List Tree),
      b.mark = m → p.tree = b.add (.node r ts) → Sound s σ p → Sound s σ q
  | step, p, q => step.isShiftFree = true → ∀ σ, Sound s σ p → Sound s σ q

/-- Each step keeps to the law, one after the other. -/
abbrev AllStaySound (s : TokenStream) : List Step → Parser → Parser → Prop :=
  Chain fun step p q => Leads (fun _ _ => True) [step] p q ∧ StaysSound s step p q

theorem StaysSound.sound {step : Step} (h : StaysSound s step p q) (hs : step.isShiftFree = true)
    (hp : Sound s σ p) : Sound s σ q := by
  unfold StaysSound at h
  split at h
  · cases hs
  · exact h hs σ hp

/-- Steps that open no shift keep all shifts right. The nodes that they opened so far, or
that they are to close, are `τ`. -/
theorem sound_of_shiftFree {d : Nat} (hc : shiftFree d ss = true) (h : AllStaySound s ss p q)
    (hp : Sound s (τ ++ σ) p) (hd : τ.length = d) (hτ : .bitExpression ∉ τ) : Sound s σ q := by
  induction ss generalizing d p τ with
  | nil =>
    rw [shiftFree, beq_iff_eq] at hc
    cases h
    rw [hc, List.length_eq_zero_iff] at hd
    rwa [hd, List.nil_append] at hp
  | cons step ss ih =>
    obtain ⟨p', ⟨hl, hs⟩, h⟩ := h
    unfold shiftFree at hc
    split at hc
    · rename_i r
      rw [Bool.and_eq_true, bne_iff_ne] at hc
      obtain rfl : p' = p.build (·.start r) := hl.single rfl
      have hp : Sound s (r :: τ ++ σ) (p.build (·.start r)) := hp.start r
      exact ih hc.2 h hp (by simp [hd]) (by simp [hc.1.symm, hτ])
    · rename_i m r
      rw [Bool.and_eq_true, bne_iff_ne] at hc
      obtain rfl : p' = p.build (·.wrap m r) := hl.single rfl
      have hp : Sound s (r :: τ ++ σ) (p.build (·.wrap m r)) := hp.wrap m r
      exact ih hc.2 h hp (by simp [hd]) (by simp [hc.1.symm, hτ])
    · obtain rfl : p' = p.build (·.finish) := hl.single rfl
      obtain ⟨r, τ, rfl⟩ := List.exists_cons_of_length_eq_add_one hd
      rw [List.mem_cons, not_or] at hτ
      exact ih hc h (hp.finish_of_ne fun hr => hτ.1 hr.symm) (by simpa using hd) hτ.2
    · rw [Bool.and_eq_true] at hc
      exact ih hc.2 h (hs.sound hc.1 hp) hd hτ

/-- The steps of a part that opens no shift keep all shifts right. -/
theorem sound_of_steps (hc : shiftFree 0 ss = true) (h : AllStaySound s ss p q) (hp : Sound s σ p) :
    Sound s σ q := by
  have hp : Sound s ([] ++ σ) p := hp
  exact sound_of_shiftFree hc h hp rfl List.not_mem_nil

/-! ## Parts that open no shift -/

theorem shiftFree_typ (v : Lookahead) (part : TypePart) : shiftFree 0 (part.expand v) = true := by
  cases part <;> simp only [TypePart.expand] <;> repeat' split
  all_goals rfl

theorem shiftFree_soql (v : Lookahead) (part : QueryPart) : shiftFree 0 (part.expand v) = true := by
  cases part
  all_goals
    simp only [QueryPart.expand, clause, selectEntrySteps, valueSteps]
    repeat' split
  all_goals rfl

theorem shiftFree_stmt (v : Lookahead) (part : StmtPart) : shiftFree 0 (part.expand v) = true := by
  cases part
  all_goals
    simp only [StmtPart.expand, untilBrace, loopControlSteps, whenValueSteps, statementSteps,
      dmlSteps]
    repeat' split
  all_goals rfl

theorem shiftFree_decl (v : Lookahead) (part : DeclPart) (h : (Step.decl part).isShiftFree = true) :
    shiftFree 0 (part.expand v) = true := by
  cases part with
  | blockMember r =>
    have hr : (r != .bitExpression) = true := h
    simp only [DeclPart.expand]
    split <;> simp [shiftFree, hr, Step.isShiftFree]
  | _ =>
    simp only [DeclPart.expand, untilBrace, memberSteps, classMemberSteps, annotationValueSteps]
    repeat' split
    all_goals rfl

theorem shiftFree_expr (v : Lookahead) (mark : Nat) (part : ExprPart)
    (hb : ∀ level, part ≠ .binary level) (ho : ∀ level m, part ≠ .operators level m) :
    shiftFree 0 (part.expand v mark) = true := by
  cases part with
  | binary level => exact absurd rfl (hb level)
  | operators level m => exact absurd rfl (ho level m)
  | primary =>
    exact primarySteps_cases (P := fun ss =>
      shiftFree 0 (Step.start .primaryExpression :: ss ++ [Step.finish]) = true) v
      rfl rfl rfl rfl rfl rfl rfl rfl rfl
  | _ =>
    simp only [ExprPart.expand, unarySteps, callSteps, initializerSteps]
    repeat' split
    all_goals rfl

/-! ## All steps -/

theorem sound_binary {level : Nat} (hp : Sound s σ p)
    (h : AllStaySound s ((ExprPart.binary level).expand p.lookahead p.tree.mark) p q) :
    Sound s σ q := by
  simp only [ExprPart.expand] at h
  split at h
  · obtain ⟨p', ⟨hl, h1⟩, q', ⟨_, h2⟩, rfl⟩ := h
    obtain ⟨p'', ⟨r, ts, hnode⟩, rfl⟩ := hl.shaped
    exact h2 σ p.tree r ts rfl hnode (h1.sound rfl hp)
  · exact sound_of_steps rfl h hp

/-- The node of an operator that is a shift is closed around its operands and the angles
that were ahead. -/
theorem shiftIn_of_operators {level n : Nat} {b : Builder} {r : Rule} {ts : List Tree}
    (hop : p.lookahead.operatorAhead level = some (.bitExpression, n))
    (hp : p.tree = b.add (.node r ts))
    (h : Runs [.wrap b.mark .bitExpression, .take n, rightOperand .bitExpression level] p q) :
    ∀ f ∈ q.tree.frames.head?, ShiftIn p.stream f.rule f.children.toList := by
  obtain ⟨p₁, h1, h⟩ := h.uncons
  obtain ⟨p₂, h2, h3⟩ := h.uncons
  obtain rfl : p₁ = p.build (·.wrap b.mark .bitExpression) := h1.single rfl
  obtain rfl : p₂ = (p.build (·.wrap b.mark .bitExpression)).takeMany n := h2.single rfl
  obtain ⟨q, ⟨r', ts', hright⟩, rfl⟩ := h3.shaped
  have hwrap : p.tree.wrap b.mark .bitExpression =
      (b.start .bitExpression).addAll [.node r ts] := by
    rw [hp]
    exact Builder.wrap_addAll b _ [.node r ts]
  have htree : q.tree = (b.start .bitExpression).addAll
      (Tree.node r ts :: ((List.range n).map fun k => Tree.token (p.lookahead.nth k)) ++
        [Tree.node r' ts']) := by
    rw [hright, tree_takeMany, tree_build, hwrap, ← Builder.addAll_append]
    exact (Builder.addAll_append _ _ [_]).symm
  have hnth : ∀ k, p.lookahead.nth k = p.stream.nth (p.position + k) := fun _ => rfl
  intro f hf
  rw [htree, Builder.start, Builder.addAll_frame, List.head?_cons, Option.mem_some_iff] at hf
  subst hf
  exact fun _ => ⟨.node r ts, .node r' ts', p.position, n,
    Lookahead.shiftAt_of_operatorAhead hop, by simp [hnth]⟩

theorem sound_operators {level m : Nat}
    (h : AllStaySound s ((ExprPart.operators level m).expand p.lookahead p.tree.mark) p q) :
    StaysSound s (.expr (.operators level m)) p q := by
  rintro σ b r ts rfl hnode hp
  simp only [ExprPart.expand] at h
  split at h
  · rename_i r' n hop
    obtain ⟨p₁, ⟨hl₁, -⟩, p₂, ⟨hl₂, -⟩, p₃, ⟨hl₃, h₃⟩, p₄, ⟨hl₄, -⟩, q', ⟨-, h₅⟩, rfl⟩ := h
    have hrun : Runs [.wrap b.mark r', .take n, rightOperand r' level] p p₃ :=
      hl₁.cons (hl₂.cons hl₃)
    obtain ⟨r₄, ts₄, hnode₄⟩ := regrows_of_wrap [.take n, rightOperand r' level]
      (closes_operator n r' level) (hrun.append hl₄).shaped b r ts rfl hnode
    obtain rfl : p₁ = p.build (·.wrap b.mark r') := hl₁.single rfl
    obtain rfl : p₂ = (p.build (·.wrap b.mark r')).takeMany n := hl₂.single rfl
    obtain rfl : p₄ = p₃.build (·.finish) := hl₄.single rfl
    have hfree : (rightOperand r' level).isShiftFree = true := by
      unfold rightOperand
      split <;> rfl
    have hp₃ : Sound s (r' :: σ) p₃ := h₃.sound hfree ((hp.wrap b.mark r').takeMany n)
    refine h₅ σ b r₄ ts₄ rfl hnode₄ ?_
    by_cases hr : r' = .bitExpression
    · subst hr
      refine hp₃.finish ?_
      rw [← hp.stream]
      exact shiftIn_of_operators hop hnode hrun
    · exact hp₃.finish_of_ne hr
  · cases h
    exact hp

theorem sound_expect {e : Expected} {next more : List Step} (h : p.expect e next = (p', .ok more))
    (hc : shiftFree 0 next = true) (hm : AllStaySound s more p' q) (hp : Sound s σ p) :
    Sound s σ q := by
  rcases expect_ok h with ⟨_, rfl, rfl⟩ | ⟨_, _, ⟨m, rfl⟩, rfl⟩ | ⟨⟨m, rfl⟩, rfl⟩
  · exact sound_of_steps hc hm hp.take
  · have hc : shiftFree 0 (.skip :: .take 1 :: next) = true := hc
    exact sound_of_steps hc hm (hp.report m)
  · cases hm
    exact hp.report m

/-- A step keeps to the law when the steps that it leads to do. -/
theorem staysSound_perform {step : Step} {more : List Step}
    (h : p.perform step = (p', .ok more)) (hm : AllStaySound s more p' q) :
    StaysSound s step p q := by
  cases step with
  | start _ | wrap _ _ | finish => exact fun hf => by cases hf
  | take n =>
    cases h
    cases hm
    exact fun _ σ hp => hp.takeMany n
  | takeIf m =>
    cases h
    cases hm
    intro _ σ hp
    split
    · exact hp.take
    · exact hp
  | skip =>
    cases h
    cases hm
    exact fun _ σ hp => hp.skip
  | progress since =>
    cases h
    cases hm
    intro _ σ hp
    split
    · exact hp.skip
    · exact hp
  | expect e => exact fun _ σ hp => sound_expect h rfl hm hp
  | expectThen e next =>
    intro hnext σ hp
    exact sound_expect h (shiftFree_singleton hnext) hm hp
  | complain c =>
    obtain ⟨rfl, rfl⟩ := reportThen_ok h
    cases hm
    exact fun _ σ hp => hp.report _
  | endOfText =>
    intro _ σ hp
    simp only [perform] at h
    split at h
    · cases h
      cases hm
      exact hp.take
    · obtain ⟨rfl, rfl⟩ := reportThen_ok h
      exact sound_of_steps rfl hm (hp.report _)
  | skipRest =>
    intro _ σ hp
    simp only [perform] at h
    split at h
    · cases h
      cases hm
      exact hp
    · cases h
      exact sound_of_steps rfl hm hp.skip
  | typ part =>
    cases h
    exact fun _ σ hp => sound_of_steps (shiftFree_typ _ _) hm hp
  | soql part =>
    cases h
    exact fun _ σ hp => sound_of_steps (shiftFree_soql _ _) hm hp
  | stmt part =>
    cases h
    exact fun _ σ hp => sound_of_steps (shiftFree_stmt _ _) hm hp
  | decl part =>
    cases h
    exact fun hpart σ hp => sound_of_steps (shiftFree_decl _ _ hpart) hm hp
  | expr part =>
    cases h
    cases part with
    | binary level => exact fun _ σ hp => sound_binary hp hm
    | operators level m => exact sound_operators hm
    | _ =>
      intro _ σ hp
      refine sound_of_steps ?_ hm hp
      exact shiftFree_expr _ _ _ (fun _ he => by cases he) (fun _ _ he => by cases he)

/-- A run keeps to the law. -/
theorem allStaySound (h : Runs ss p q) : AllStaySound s ss p q :=
  h.chain fun hp _ hm => staysSound_perform hp hm

/-- The tree of a call has only right shifts. -/
theorem everywhere_shiftIn {entry : Entry} {tree : Tree} (h : (p.parse entry).2 = .ok tree) :
    tree.Everywhere (ShiftIn p.stream) := by
  rcases run_ends p entry with ⟨r, hrun⟩ | ⟨r, e, hthrown, _⟩
  · obtain ⟨tree', hc, _⟩ := exists_call_of_finished hrun
    rw [hc.returns] at h
    cases h
    have hfree : shiftFree 0 [entry.step] = true := by
      cases entry <;> rfl
    have hsound : Sound p.stream [] r := sound_of_steps hfree
      (allStaySound (leads_of_runWithin hrun)) ⟨rfl, rfl, Builder.all_empty _⟩
    have hroot := hc.oneRoot
    rw [hrun] at hroot
    have hfits := hsound.fits
    rw [hroot] at hfits
    exact hfits.1 tree (by simp)
  · rw [parse_of_thrown (by rw [hthrown])] at h
    cases h

end Law

/-! ## Whole texts -/

/-- Shifts touch. Two tokens that a parser sees one behind the other touch when no token
stands between them, that is when all characters between them were lost to errors; they
adjoin when they touch and nothing is lost there. The angles of a shift all touch, in every
tree over the tokens of a text, so on a text without errors they adjoin. -/
theorem shifts_touch (casing : Text.Casing) (text : String) :
    ∃ s loss, TokenStream.ofString casing text = .ok s ∧
      Tiled (text.toList.map casing.show) 0 s.tokens.toList loss ∧
      (∀ i n, i + n + 1 < s.visible.size →
        let v : Lookahead := ⟨s, i⟩
        let a := v.nth n
        let b := v.nth (n + 1)
        (v.touches n = true ↔ ∀ t ∈ s.tokens, ¬ (a.stop < t.start ∧ t.stop < b.start)) ∧
        (v.touches n = true ↔ a.Meets loss b) ∧
        (a.Adjoins b ↔ v.touches n = true ∧ ∀ j, a.Parts b j → ¬ loss.Takes j)) ∧
      ((Lexer.ofString casing text).readAll.2.errorCount = 0 →
        ∀ a b : Token, a.Meets loss b ↔ a.Adjoins b) ∧
      ∀ (p : Parser) (entry : Entry), p.stream = s →
        (Listener.stopsAt p.listeners = false → ∃ tree, (p.parse entry).2 = .ok tree) ∧
        ∀ tree, (p.parse entry).2 = .ok tree → tree.Everywhere fun r ts =>
          r = .bitExpression → ∃ left right i n, ShiftAt s i n ∧
            ts = left :: ((List.range n).map fun k => .token (s.nth (i + k))) ++ [right] ∧
            ∀ k, k + 1 < n → (s.nth (i + k)).Meets loss (s.nth (i + (k + 1))) := by
  obtain ⟨s, loss, hs, hn, htiled, hcount⟩ := TokenStream.exists_tiled casing text
  have hmeets : ∀ i n, i + n + 1 < s.visible.size →
      ((⟨s, i⟩ : Lookahead).touches n = true ↔ (s.nth (i + n)).Meets loss (s.nth (i + (n + 1)))) :=
    fun i n => Lookahead.touches_iff_meets (v := ⟨s, i⟩) hn htiled
  refine ⟨s, loss, hs, htiled, fun i n hin => ⟨?_, hmeets i n hin, ?_⟩, fun he a b => ?_,
    fun p entry hp => ⟨fun hl => ?_, fun tree htree => ?_⟩⟩
  · rw [Lookahead.touches, beq_iff_eq]
    exact TokenStream.succ_iff_no_token hn htiled (Nat.lt_succ_self _) hin
  · rw [hmeets i n hin]
    exact Token.adjoins_iff_meets
  · have hkept : ∀ j, a.Parts b j → ¬ loss.Takes j := fun j _ => Loss.not_takes (hcount ▸ he) j
    rw [Token.adjoins_iff_meets, and_iff_left hkept]
  · obtain ⟨q, tree, hc, _⟩ := exists_call hl entry
    exact ⟨tree, by rw [hc.returns]⟩
  · refine (everywhere_shiftIn htree).mono fun r ts hshift hr => ?_
    rw [hp] at hshift
    obtain ⟨left, right, i, n, hat, hts⟩ := hshift hr
    refine ⟨left, right, i, n, hat, hts, fun k hk => ?_⟩
    have hwithin := hat.within
    rw [← hmeets i k (by omega), Lookahead.touches, beq_iff_eq]
    exact hat.touching k hk

theorem shifts_touch_unsigned :
    ∃ s tree, TokenStream.ofString .folded "a >>> b" = .ok s ∧
      ((ofStream s).parse .expression).2 = .ok tree ∧
      (tree.findAll .bitExpression).map (fun t => t.leaves.map fun l => l.token.start) =
        [[0, 2, 3, 4, 6]] ∧
      (s.nth 1).Adjoins (s.nth 2) ∧ (s.nth 2).Adjoins (s.nth 3) := by
  obtain ⟨s, loss, hs, _, hpairs, hclean, hcalls⟩ := shifts_touch .folded "a >>> b"
  obtain ⟨tree, htree⟩ := (hcalls (ofStream s) .expression rfl).1 rfl
  have hread : (Lexer.ofString .folded "a >>> b").readAll.2.errorCount = 0 ∧
      (TokenStream.ofString .folded "a >>> b").toOption.map (fun s =>
        (s.visible.size, (⟨s, 1⟩ : Lookahead).touches 0, (⟨s, 1⟩ : Lookahead).touches 1,
          ((ofStream s).parse .expression).2.toOption.map fun tree =>
            (tree.findAll .bitExpression).map fun t => t.leaves.map fun l => l.token.start)) =
      some (5, true, true, some [[0, 2, 3, 4, 6]]) := by
    decide +kernel
  obtain ⟨he, hread⟩ := hread
  rw [hs] at hread
  obtain ⟨hsize, hread⟩ := Prod.mk.inj (Option.some.inj hread)
  obtain ⟨hfirst, hread⟩ := Prod.mk.inj hread
  obtain ⟨hsecond, hshift⟩ := Prod.mk.inj hread
  rw [htree] at hshift
  refine ⟨s, tree, hs, htree, Option.some.inj hshift, ?_, ?_⟩
  · rw [← hclean he]
    exact (hpairs 1 0 (by omega)).2.1.1 hfirst
  · rw [← hclean he]
    exact (hpairs 1 1 (by omega)).2.1.1 hsecond

/-- A character that is lost parts two angles, which make a shift all the same. -/
theorem shift_over_lost_character :
    ∃ s, TokenStream.ofString .folded "a >#> b" = .ok s ∧
      (⟨s, 1⟩ : Lookahead).touches 0 = true ∧ 3 < s.visible.size ∧
      ¬ (s.nth 1).Adjoins (s.nth 2) ∧
      (((ofStream s).parse .expression).2.toOption.map fun tree =>
        (tree.findAll .bitExpression).map fun t =>
          t.leaves.map fun l => (l.token.text, l.token.start, l.token.stop)) =
        some [[("a", 0, 0), (">", 2, 2), (">", 4, 4), ("b", 6, 6)]] := by
  decide +kernel

end Parser

end ApexSyntax
