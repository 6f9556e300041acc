-- Accepted units are well nested. What a calm run reads nests like the words of its
-- steps, and the word of a unit is empty. Searches are read as they come, so they are
-- left out: a tree without a search comes from a run that made none.
import ApexSyntax.Proofs.Nesting.Steps
import ApexSyntax.Proofs.Parser.Grammatical

namespace ApexSyntax

/-! ## Nodes that are built -/

namespace Tree

mutual

theorem findOnto_eq (r : Rule) (acc : List Tree) :
    ∀ t : Tree, findOnto r acc t = findOnto r [] t ++ acc
  | node r' ts => by
    rw [findOnto, findOnto, findAllOnto_eq r acc ts]
    split <;> rfl
  | token _ => rfl
  | skipped _ => rfl

theorem findAllOnto_eq (r : Rule) (acc : List Tree) :
    ∀ ts : List Tree, findAllOnto r acc ts = findAllOnto r [] ts ++ acc
  | [] => rfl
  | t :: ts => by
    rw [findAllOnto, findAllOnto, findOnto_eq r, findAllOnto_eq r acc ts,
      findOnto_eq r (findAllOnto r [] ts), List.append_assoc]

end

theorem findAllOnto_nil (r : Rule) (ts : List Tree) :
    findAllOnto r [] ts = ts.flatMap fun t => t.findAll r := by
  induction ts with
  | nil => rfl
  | cons t ts ih => rw [findAllOnto, findOnto_eq, ih]; rfl

theorem findAll_node (r r' : Rule) (ts : List Tree) :
    (node r' ts).findAll r =
      (if r' = r then [node r' ts] else []) ++ ts.flatMap fun t => t.findAll r := by
  rw [findAll, findOnto, findAllOnto_nil]
  split <;> rfl

end Tree

/-- An open node comes from a rule, or holds a node that does. -/
def Frame.Has (r : Rule) (f : Frame) : Prop := f.rule = r ∨ ∃ t ∈ f.children, t.findAll r ≠ []

namespace Builder

/-- A node that comes from a rule is built, or is open. -/
def Has (r : Rule) (b : Builder) : Prop :=
  (∃ t ∈ b.ground, t.findAll r ≠ []) ∨ ∃ f ∈ b.frames, f.Has r

variable {r : Rule} {b : Builder}

theorem exists_mem_push {ts : Array Tree} {t : Tree} {P : Tree → Prop} :
    (∃ u ∈ ts.push t, P u) ↔ (∃ u ∈ ts, P u) ∨ P t := by
  simp only [Array.mem_push, or_and_right, exists_or, exists_eq_left]

theorem has_add_of (t : Tree) (h : b.Has r ∨ t.findAll r ≠ []) : (b.add t).Has r := by
  rcases b with ⟨ground, _ | ⟨f, rest⟩⟩
  · simp only [add, Has, exists_mem_push] at h ⊢
    grind
  · simp only [add, Has, Frame.Has, exists_mem_push, List.mem_cons, exists_eq_or_imp] at h ⊢
    grind

theorem has_add (t : Tree) (h : b.Has r) : (b.add t).Has r := has_add_of t (.inl h)

theorem has_start (s : Rule) (h : b.Has r) : (b.start s).Has r := by
  simp only [start, Has, List.mem_cons] at h ⊢
  grind

/-- Trees that are split at a mark are the same trees. -/
theorem exists_split {ts : Array Tree} {P : Tree → Prop} (mark : Nat) (h : ∃ t ∈ ts, P t) :
    (∃ t ∈ ts.shrink mark, P t) ∨ ∃ t ∈ ts.extract mark ts.size, P t := by
  have hsplit : (ts.shrink mark).toList ++ (ts.extract mark ts.size).toList = ts.toList := by
    rw [Array.toList_extract, List.extract_eq_take_drop, Array.toList_shrink,
      List.take_of_length_le (l := ts.toList.drop mark) (by simp), List.take_append_drop]
  obtain ⟨t, ht, hp⟩ := h
  rw [← Array.mem_toList_iff, ← hsplit, List.mem_append, Array.mem_toList_iff,
    Array.mem_toList_iff] at ht
  exact ht.imp (fun ht => ⟨t, ht, hp⟩) fun ht => ⟨t, ht, hp⟩

theorem has_wrap (mark : Nat) (s : Rule) (h : b.Has r) : (b.wrap mark s).Has r := by
  rcases b with ⟨ground, _ | ⟨f, rest⟩⟩
  · simp only [wrap, Has, Frame.Has, List.mem_cons, exists_eq_or_imp] at h ⊢
    rcases h with h | ⟨f, hf, _⟩
    · rcases exists_split mark h with h | h
      · exact .inl h
      · exact .inr (.inl (.inr h))
    · cases hf
  · simp only [wrap, Has, Frame.Has, List.mem_cons, exists_eq_or_imp] at h ⊢
    rcases h with h | (hr | h) | h
    · exact .inl h
    · exact .inr (.inr (.inl (.inl hr)))
    · rcases exists_split mark h with h | h
      · exact .inr (.inr (.inl (.inr h)))
      · exact .inr (.inl (.inr h))
    · exact .inr (.inr (.inr h))

theorem has_finish (h : b.Has r) : b.finish.Has r := by
  rcases b with ⟨ground, _ | ⟨f, rest⟩⟩
  · exact h
  · refine has_add_of _ ?_
    rcases h with h | ⟨g, hg, hr⟩
    · exact .inl (.inl h)
    · rcases List.mem_cons.1 hg with rfl | hg
      · right
        rw [Tree.findAll_node]
        rcases hr with hr | ⟨t, ht, hr⟩
        · simp [hr]
        · simp only [ne_eq, List.append_eq_nil_iff, List.flatMap_eq_nil_iff, not_and]
          exact fun _ hall => hr (hall t (Array.mem_toList_iff.2 ht))
      · exact .inl (.inr ⟨g, hg, hr⟩)

end Builder

namespace Parser

/-! ## Runs without a search -/

/-- A calm step over words that is no search. -/
structure Sober (p : Parser) (s : Step) : Prop where
  calm : Calm true p s
  spelled : p.stream.Spelled
  noSearch : s ≠ .soql .search

theorem has_kept (r : Rule) : Kept fun p q => p.tree.Has r → q.tree.Has r where
  refl _ := id
  trans h h' := h' ∘ h
  take p := Builder.has_add _
  report p m h := by rwa [tree_report]
  start p s := Builder.has_start s
  wrap p mark s := Builder.has_wrap mark s
  finish p := Builder.has_finish

theorem Leads.has {allowed : Parser → Step → Prop} {ss : List Step} {p q : Parser} {r : Rule}
    (h : Leads allowed ss p q) (hp : p.tree.Has r) : q.tree.Has r := by
  refine h.keeps (R := fun p q => p.tree.Has r → q.tree.Has r) (fun _ => id)
    (fun _ _ _ h h' => h' ∘ h) (fun s p p' more _ hs => ?_) hp
  exact (has_kept r).perform hs fun _ => Builder.has_add _

/-- A calm run whose tree has no search makes none. -/
theorem sober_of_calm {ss : List Step} {p q : Parser} (h : Leads (Calm true) ss p q)
    (hs : p.stream.Spelled) (hq : ¬ q.tree.Has .soslQuery) : Leads Sober ss p q := by
  induction h with
  | done p => exact .done p
  | @perform s more rest p p' q r ha hp hm hrest ih1 ih2 =>
    have hm' := moves_perform hp
    have hs' : p'.stream.Spelled := by rwa [hm'.stream]
    have hsq : q.stream.Spelled := by rwa [hm.moves.stream]
    have hnq : ¬ q.tree.Has .soslQuery := fun h => hq (hrest.has h)
    refine .perform ⟨ha, hs, ?_⟩ hp (ih1 hs' hnq) (ih2 hsq hq)
    rintro rfl
    cases hp
    cases hm with
    | perform _ hstart hmore hrest' =>
      cases hstart
      apply hnq
      exact hrest'.has (hmore.has (.inr ⟨_, List.mem_cons_self, .inl rfl⟩))

/-! ## What is read -/

/-- The kinds of the tokens that were read between two parsers. -/
def wordTo (p q : Parser) : List Kind :=
  (p.stream.between p.position q.position).map Token.kind

/-- What a step reads nests like its word. -/
def Nests (s : Step) (p q : Parser) : Prop :=
  s.nests = true → ∀ st, nest st (p.wordTo q) = nest st s.brackets

abbrev NestsAll : List Step → Parser → Parser → Prop :=
  Chain fun s p q => Leads Sober [s] p q ∧ Nests s p q

section Words

variable {p p' q r : Parser} {s : Step} {ss more : List Step} {st : List Bracket}

theorem wordTo_of_eq (h : q.position = p.position) : p.wordTo q = [] := by
  simp [wordTo, h]

theorem wordTo_append (h : Moves p q) (h' : Moves q r) :
    p.wordTo q ++ q.wordTo r = p.wordTo r := by
  rw [wordTo, wordTo, wordTo, h.stream, ← List.map_append,
    p.stream.between_append h.position_le h'.position_le]

/-- Reading a token adds it to the word. The end adds nothing, and is no bracket. -/
theorem nest_wordTo_take (p : Parser) (st : List Bracket) :
    nest st (p.wordTo p.take) = nest st [p.lookahead.kind 0] := by
  by_cases h : p.position < p.stream.visible.size
  · rw [wordTo, position_take, behind_of_lt h, p.stream.between_succ h]
    rfl
  · have he : p.current.isEof = true := (isEof_current_iff p).2 (by omega)
    rw [wordTo_of_eq (behind_of_eof he), kind_lookahead, beq_iff_eq.1 he]
    rfl

theorem kind_take (p : Parser) (n : Nat) : p.take.lookahead.kind n = p.lookahead.kind (n + 1) := by
  by_cases h : p.position < p.stream.visible.size
  · simp only [Lookahead.kind, Lookahead.nth, lookahead, stream_take, position_take, behind_of_lt h]
    rw [Nat.add_right_comm, Nat.add_assoc]
  · have he : ∀ q : Parser, q.stream = p.stream → q.position = p.position →
        ∀ n, q.lookahead.kind n = .eof := by
      intro q hs hp n
      refine (q.stream.kind_nth_eq_eof_iff _).2 ?_
      rw [hs]
      show _ ≤ q.position + n
      omega
    rw [he p rfl rfl, he p.take rfl (behind_of_eof ((isEof_current_iff p).2 (by omega)))]

theorem nest_wordTo_takeMany (p : Parser) (n : Nat) (st : List Bracket) :
    nest st (p.wordTo (p.takeMany n)) = nest st (p.lookahead.kinds n) := by
  induction n generalizing p st with
  | zero => rw [takeMany, wordTo_of_eq rfl]; rfl
  | succ n ih =>
    have hk : p.lookahead.kinds (n + 1) = [p.lookahead.kind 0] ++ p.take.lookahead.kinds n := by
      simp [Lookahead.kinds, List.range_succ_eq_map, Function.comp_def, kind_take]
    rw [takeMany, ← wordTo_append (moves_take p) (moves_kept.takeMany p.take n), nest_append,
      nest_wordTo_take, hk, nest_append]
    exact congrArg _ (funext (ih p.take))

theorem NestsAll.moves (h : NestsAll ss p q) : Moves p q :=
  h.fold Moves.refl (fun _ _ _ => Moves.trans) fun _ _ _ hc => hc.1.moves

theorem nest_all (h : NestsAll ss p q) (hs : ss.all Step.nests = true) (st : List Bracket) :
    nest st (p.wordTo q) = nest st (ss.flatMap Step.brackets) := by
  induction ss generalizing p st with
  | nil => rw [h, wordTo_of_eq rfl]; rfl
  | cons s ss ih =>
    obtain ⟨p', ⟨hrun, hn⟩, h⟩ := h
    rw [List.all_cons, Bool.and_eq_true] at hs
    rw [← wordTo_append hrun.moves (NestsAll.moves h), nest_append, hn hs.1, List.flatMap_cons,
      nest_append]
    exact congrArg _ (funext (ih h hs.2))

/-- Steps nest like their words, behind the tokens that the first of them takes. -/
theorem nest_turn (h : NestsAll ss p q) (hs : nestsBehindTake ss = true) (st : List Bracket) :
    nest st (p.wordTo q) = nest st (p.lookahead.bracketsOf ss) := by
  induction ss generalizing p with
  | nil => exact nest_all h rfl st
  | cons s ss ih =>
    -- Opening a node moves nothing, so the lookahead stays as it is.
    have hopen : ∀ f : Builder → Builder, p.perform s = (p.build f, .ok []) →
        nestsBehindTake ss = true → p.lookahead.bracketsOf (s :: ss) = p.lookahead.bracketsOf ss →
        nest st (p.wordTo q) = nest st (p.lookahead.bracketsOf (s :: ss)) := by
      intro f hp hs hb
      obtain ⟨p', ⟨hrun, _⟩, h⟩ := h
      obtain rfl := hrun.single hp
      rw [hb]
      exact ih (p := p.build f) h hs
    cases s with
    | start r => exact hopen _ rfl hs rfl
    | wrap mark r => exact hopen _ rfl hs rfl
    | take n =>
      obtain ⟨p', ⟨hrun, _⟩, h⟩ := h
      have hp : p.perform (.take n) = (p.takeMany n, .ok []) := rfl
      obtain rfl := hrun.single hp
      rw [← wordTo_append hrun.moves (NestsAll.moves h), nest_append, nest_wordTo_takeMany]
      show _ = nest st (p.lookahead.kinds n ++ ss.flatMap Step.brackets)
      rw [nest_append]
      exact congrArg _ (funext (nest_all h hs))
    | _ => exact nest_all h hs st

/-! ## The law of all steps -/

/-- An expected token nests like its word, whatever it is. -/
theorem nest_accepted {e : Expected} (hs : p.stream.Spelled)
    (he : e.accepts p.current = true) (hw : e ≠ .spelled "") (st : List Bracket) :
    nest st [p.lookahead.kind 0] = nest st e.brackets := by
  cases e with
  | kind k =>
    have hk : p.lookahead.kind 0 = k := beq_iff_eq.1 he
    simp only [Expected.brackets, Kind.brackets]
    split
    · rw [hk, nest_plain ‹_›]
    · rw [hk]
  | identifier => exact nest_plain (Token.isPlain_of_isIdentifier he) st
  | word => exact nest_plain (Lookahead.isPlain_of_isWord hs he) st
  | spelled w =>
    have hcur : p.lookahead.word 0 = w := beq_iff_eq.1 he
    refine nest_plain (Lookahead.isPlain_of_word hs fun h => hw ?_) st
    rw [← hcur, h]

theorem nest_expect {e : Expected} {next : List Step} (ha : Sober p s)
    (hp : p.perform s = p.expect e next) (h : p.perform s = (p', .ok more))
    (hm : NestsAll more p' q) (hw : e ≠ .spelled "") (hn : next.all Step.nests = true)
    (st : List Bracket) :
    nest st (p.wordTo q) = nest st (e.brackets ++ next.flatMap Step.brackets) := by
  obtain ⟨he, rfl, rfl⟩ := expect_calm ha.calm hp h
  rw [← wordTo_append (moves_take p) (NestsAll.moves hm), nest_append, nest_wordTo_take,
    nest_accepted ha.spelled he hw, nest_append]
  exact congrArg _ (funext (nest_all hm hn))

theorem nests_of_stay (hq : q.position = p.position) (hb : s.brackets = []) : Nests s p q :=
  fun _ st => by rw [wordTo_of_eq hq, hb]

theorem nests_part (hm : NestsAll more p q) (ht : Turns p.lookahead s more) : Nests s p q :=
  fun _ st => (nest_turn hm ht.nests st).trans (ht.nest_eq st)

/-- A unit of members and statements takes the end of the text at last, which is no
bracket. -/
theorem nests_anonymousUnit
    (h : NestsAll [.start .anonymousUnit, .decl .anonymousMembers, .take 1, .finish] p q) :
    Nests (.decl .anonymousUnit) p q := by
  obtain ⟨p1, ⟨h1, _⟩, p2, ⟨h2, hn⟩, p3, ⟨h3, _⟩, p4, ⟨h4, _⟩, rfl⟩ := h
  have hs : p.perform (.start .anonymousUnit) = (p.build (·.start .anonymousUnit), .ok []) := rfl
  obtain rfl := h1.single hs
  have ht : p2.perform (.take 1) = (p2.take, .ok []) := rfl
  obtain rfl := h3.single ht
  have hf : p2.take.perform .finish = (p2.take.build (·.finish), .ok []) := rfl
  obtain rfl := h4.single hf
  have hend : p2.take.position = p2.position :=
    behind_of_eof ((isEof_current_iff p2).2 (h2.atEnd rfl))
  intro _ st
  have hword : p.wordTo (p2.take.build (·.finish)) =
      (p.build (·.start .anonymousUnit)).wordTo p2 := by
    simp only [wordTo, position_build, stream_build, hend]
  rw [hword, hn rfl st]
  rfl

theorem nests_perform (ha : Sober p s) (h : p.perform s = (p', .ok more))
    (hm : NestsAll more p' q) : Nests s p q := by
  cases s with
  | start _ | wrap _ _ | finish =>
    cases h
    cases hm
    exact nests_of_stay rfl rfl
  | take n => exact fun hn => by cases hn
  | takeIf m =>
    cases h
    cases hm
    intro hn st
    split
    · rename_i hv
      rw [nest_wordTo_take, beq_iff_eq.1 hv, nest_plain hn]
      rfl
    · exact nests_of_stay rfl rfl hn st
  | skip => exact absurd trivial (ha.calm rfl).1
  | progress since =>
    have hp : p.position ≠ since := (ha.calm rfl).1
    rw [perform, if_neg hp] at h
    cases h
    cases hm
    exact nests_of_stay rfl rfl
  | expect e =>
    intro hn st
    rw [nest_expect ha rfl h hm (bne_iff_ne.1 hn) rfl, List.flatMap_nil, List.append_nil]
    rfl
  | expectThen e next =>
    intro hn st
    obtain ⟨hw, hnext⟩ := Bool.and_eq_true_iff.1 hn
    rw [nest_expect ha rfl h hm (bne_iff_ne.1 hw) (by simpa using hnext), List.flatMap_cons,
      List.flatMap_nil, List.append_nil]
    rfl
  | complain c =>
    obtain ⟨hr, _⟩ := reportThen_ok h
    exact absurd rfl (ne_true_of_report ha.calm h hr)
  | endOfText =>
    have hend := h
    simp only [perform] at h
    split at h
    · rename_i he
      cases h
      cases hm
      exact nests_of_stay (behind_of_eof he) rfl
    · obtain ⟨hr, _⟩ := reportThen_ok h
      exact absurd rfl (ne_true_of_report ha.calm hend hr)
  | skipRest =>
    simp only [perform] at h
    split at h
    · cases h
      cases hm
      exact nests_of_stay rfl rfl
    · rename_i he
      exact absurd (Bool.eq_false_iff.2 he) (ha.calm rfl).1
  | typ part => cases h; exact nests_part hm part.turns
  | expr part => cases h; exact nests_part hm (part.turns ha.spelled _)
  | soql part =>
    cases h
    intro hn
    refine nests_part hm (part.turns ha.spelled ?_ hn) hn
    rintro rfl
    exact ha.noSearch rfl
  | stmt part => cases h; exact nests_part hm (part.turns ha.spelled)
  | decl part =>
    cases h
    by_cases hu : part = .anonymousUnit
    · subst hu
      exact nests_anonymousUnit hm
    · exact nests_part hm (part.turns ha.spelled hu)

end Words

/-- What a calm run reads nests like the words of its steps. -/
theorem nestsAll {ss : List Step} {p q : Parser} (h : Leads Sober ss p q) : NestsAll ss p q :=
  h.chain_of_allowed fun ha hp _ hm => nests_perform ha hp hm

/-! ## Units -/

/-- Accepted units are well nested. When a unit is parsed without an error and its tree
has no search, every bracket from there on is closed by one of its form, in order, and
none is left over. -/
theorem accepted_units_nested {casing : Text.Casing} {text : String} (p : Parser)
    (hs : TokenStream.ofString casing text = .ok p.stream) {entry : Entry}
    (hu : entry.isUnit = true) (he : (p.parse entry).1.errorCount = p.errorCount) :
    ∃ tree, (p.parse entry).2 = .ok tree ∧ (tree.findAll .soslQuery = [] →
      Nested ((p.stream.visible.toList.drop p.position).map Token.kind)) := by
  rw [errorCount_parse] at he
  rcases run_ends p entry with ⟨r, hrun⟩ | ⟨r, e, hthrown, _⟩
  · obtain ⟨tree, hc, hmoves, hend⟩ := exists_call_of_finished hrun
    refine ⟨tree, by rw [hc.returns], fun hfind => ?_⟩
    rw [hrun] at he
    have hcalm := calm_of_guarded (guarded_entry (leads_of_runWithin hrun)) rfl he
    have htree : r.tree = ⟨#[tree], []⟩ := by
      have hroot := hc.oneRoot
      rwa [hrun] at hroot
    have hsober := sober_of_calm hcalm (TokenStream.spelled_ofString hs) (by
      rw [htree]
      simp [Builder.Has, hfind])
    obtain ⟨_, ⟨_, hn⟩, rfl⟩ := nestsAll hsober
    have hnest : nest [] (p.fresh.wordTo r) = nest [] entry.step.brackets :=
      hn (by cases entry <;> rfl) []
    have hword : p.fresh.wordTo r =
        (p.stream.visible.toList.drop p.position).map Token.kind := by
      have hr : r.stream = p.stream := hmoves.stream
      have hle : r.stream.visible.size ≤ r.position := hend hu
      rw [hr] at hle
      exact congrArg _ (p.stream.between_of_le _ hle)
    apply nested_of_nest
    rw [← hword, hnest]
    cases entry <;> rfl
  · have hlt : p.fresh.errorCount < r.errorCount := errorCount_lt_of_thrown hthrown
    rw [hthrown] at he
    exact absurd he (Nat.ne_of_gt hlt)

theorem accepted_units_nested_class :
    ∃ s tree, TokenStream.ofString .folded "class A { B[] b = new B[]{ f(c[0]) }; }" = .ok s ∧
      ((ofStream s).parse .compilationUnit).1.errorCount = 0 ∧
      ((ofStream s).parse .compilationUnit).2 = .ok tree ∧ tree.findAll .soslQuery = [] ∧
      s.visible.size = 23 ∧ Nested (s.visible.toList.map Token.kind) := by
  obtain ⟨s, hs⟩ := TokenStream.ofString_ok .folded "class A { B[] b = new B[]{ f(c[0]) }; }"
  have hparse : (TokenStream.ofString .folded
      "class A { B[] b = new B[]{ f(c[0]) }; }").toOption.map (fun s =>
        (((ofStream s).parse .compilationUnit).1.errorCount, s.visible.size,
          ((ofStream s).parse .compilationUnit).2.toOption.map fun tree =>
            (tree.findAll .soslQuery).length)) = some (0, 23, some 0) := by
    decide +kernel
  rw [hs] at hparse
  obtain ⟨he, hrest⟩ := Prod.mk.inj (Option.some.inj hparse)
  obtain ⟨hsize, hfind⟩ := Prod.mk.inj hrest
  have hunit : Entry.compilationUnit.isUnit = true := rfl
  obtain ⟨tree, ht, hnested⟩ := accepted_units_nested (ofStream s) hs hunit he
  rw [ht] at hfind
  have hnone : tree.findAll .soslQuery = [] := List.length_eq_zero_iff.1 (Option.some.inj hfind)
  exact ⟨s, tree, hs, he, ht, hnone, hsize, hnested hnone⟩

end Parser

end ApexSyntax
