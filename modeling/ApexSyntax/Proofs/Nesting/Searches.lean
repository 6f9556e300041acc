-- What an accepted search leaves open. Behind its term a search is read as it comes, up to
-- the bracket that closes it; only parentheses are counted on the way, and one that closes
-- nothing is passed over. So none is left open in a search that a bracket closes.
import ApexSyntax.Proofs.Nesting.Filling

namespace ApexSyntax

open ApexSyntax.Tree

namespace Parser

/-! ## Parts of searches -/

section Parts

variable {p q : Parser}

/-- Behind a colon stands an expression that leaves nothing open. -/
theorem adds_bound (h : BalancesAll boundSteps p q) (hv : p.lookahead.atMark .colon = true) :
    ∃ us, q.tree = p.tree.add (.node .boundExpression us) ∧ NoneOpenIn us ∧
      ∀ n, openRounds n (exposedAll us) ≤ n := by
  obtain ⟨p1, ⟨h1, -⟩, p2, ⟨h2, -⟩, p3, ⟨-, h3⟩, p4, ⟨h4, -⟩, rfl⟩ := h
  obtain rfl : p1 = p.build (·.start .boundExpression) := h1.single rfl
  obtain rfl := h2.single rfl
  obtain ⟨ts, hts, hopen, hle⟩ := adds_of_balances rfl rfl h3
  obtain rfl := h4.single rfl
  refine ⟨.token p.current :: ts, ?_, (noneOpenIn_token _).append (hopen nofun), fun n => ?_⟩
  · rw [tree_build, hts]
    exact Builder.finish_addAll_start p.tree _ (.token p.current :: ts)
  · have hcolon : p.current.kind = .mark .colon := beq_iff_eq.1 hv
    rw [exposedAll_cons, exposed_token, openRounds_append, hcolon]
    exact hle rfl n

theorem adds_searchBraces (hm : BalancesAll (QueryPart.searchBraces.expand p.lookahead) p q) :
    AddsClosed (.soql .searchBraces) p q := by
  simp only [QueryPart.expand] at hm
  split at hm
  · obtain ⟨p1, ⟨h1, -⟩, rfl⟩ := hm
    obtain ⟨hacc, rfl⟩ := expected_of_calm h1
    have hkind : p.current.kind = .mark .rBrace := beq_iff_eq.1 hacc
    refine ⟨[.token p.current], rfl, fun _ => noneOpenIn_token _, fun us => ?_, fun hv => ?_⟩
    · simp [exposedFrom, Tree.kind?, hkind]
    · have hopen : p.current.kind = .mark .lBrace := beq_iff_eq.1 hv
      rw [hkind] at hopen
      cases hopen
  · rename_i hv
    obtain ⟨p1, ⟨h1, -⟩, p2, ⟨-, h2⟩, rfl⟩ := hm
    obtain rfl := h1.single rfl
    obtain ⟨ts, hts, hopen, hbraces, -⟩ := adds_of_balances rfl rfl h2
    have hkind : p.current.kind ≠ .mark .rBrace := fun hkind =>
      hv (Bool.or_eq_true_iff.2 (.inl (beq_iff_eq.2 hkind)))
    refine ⟨.token p.current :: ts, hts, fun _ => ?_, fun us => ?_, fun hv us => ?_⟩
    · exact (noneOpenIn_token _).append (hopen (absurd · Bool.false_ne_true))
    · simp [exposedFrom, Tree.kind?, hkind, hbraces]
    · have hkind : p.current.kind = .mark .lBrace := beq_iff_eq.1 hv
      simp [exposedFrom, Tree.kind?, hkind, hbraces]

theorem adds_searchTerm
    (hm : BalancesAll (QueryPart.searchTerm.expand p.lookahead) p q) :
    AddsClosed (.soql .searchTerm) p q := by
  simp only [QueryPart.expand] at hm
  split at hm
  · rename_i hv
    obtain ⟨p1, ⟨h1, -⟩, rfl⟩ := hm
    obtain rfl := h1.single rfl
    have hkind : p.current.kind = .literal .string := beq_iff_eq.1 hv
    refine ⟨[.token p.current], rfl, fun _ => noneOpenIn_token _, [.literal .string],
      fun us => ?_, fun n => Nat.le_refl _⟩
    simp [exposedFrom, Tree.kind?, hkind]
  split at hm
  · rename_i hv
    obtain ⟨us, hus, hopen, hle⟩ := adds_bound hm hv
    have hne : Rule.boundExpression ≠ .soslQuery := by decide
    refine ⟨[.node .boundExpression us], hus,
      fun _ => noneOpenIn_node (noneOpen_of_ne hne us) hopen, exposedAll us, fun ts => ?_, hle⟩
    simp [exposedFrom, Tree.kind?, exposed_node hne]
  split at hm
  · rename_i hv
    obtain ⟨p1, ⟨-, h1⟩, rfl⟩ := hm
    obtain ⟨ts, hts, hopen, -, hterm⟩ := adds_of_balances rfl rfl h1
    refine ⟨ts, hts, fun _ => hopen (absurd · Bool.false_ne_true), [.mark .lBrace, .mark .rBrace],
      hterm hv, fun n => Nat.le_refl _⟩
  · obtain ⟨p1, ⟨h1, -⟩, rfl⟩ := hm
    cases h1 with
    | perform ha hp _ _ =>
      obtain ⟨hr, -⟩ := reportThen_ok hp
      exact absurd rfl (ne_true_of_report ha.calm hp hr)

/-- A token that is read as it comes opens a parenthesis, closes one, or does neither. -/
theorem adds_searchToken {depth depth' : Nat} (hd : p.current.kind.roundsBehind depth = depth')
    (hm : BalancesAll [.take 1, .soql (.searchRest depth')] p q) :
    AddsClosed (.soql (.searchRest depth)) p q := by
  obtain ⟨p1, ⟨h1, -⟩, p2, ⟨-, h2⟩, rfl⟩ := hm
  obtain rfl := h1.single rfl
  obtain ⟨ts, hts, hopen, hrest⟩ := adds_of_balances rfl rfl h2
  refine ⟨.token p.current :: ts, hts, fun _ => (noneOpenIn_token _).append (hopen nofun),
    fun hend => ?_⟩
  rw [exposedAll_cons, exposed_token, openRounds_append, openRounds_cons, openRounds_nil, hd]
  exact hrest hend

theorem adds_searchRest {depth : Nat}
    (hm : BalancesAll ((QueryPart.searchRest depth).expand p.lookahead) p q) :
    AddsClosed (.soql (.searchRest depth)) p q := by
  simp only [QueryPart.expand] at hm
  split at hm
  · rename_i hv
    cases hm
    refine ⟨[], rfl, fun _ => noneOpenIn_nil, fun hend => ?_⟩
    rcases Bool.or_eq_true_iff.1 hv with hv | hv
    · exact absurd ((isEof_current_iff p).1 hv) hend
    · exact beq_iff_eq.1 (Bool.and_eq_true_iff.1 hv).2
  split at hm
  · rename_i hv
    have hkind : p.current.kind = .mark .lParen := beq_iff_eq.1 hv
    exact adds_searchToken (by rw [hkind]; rfl) hm
  split at hm
  · rename_i hv
    have hkind : p.current.kind = .mark .rParen := beq_iff_eq.1 hv
    exact adds_searchToken (by rw [hkind]; rfl) hm
  rename_i hopens hcloses
  split at hm
  · rename_i hv
    obtain ⟨p1, hbound, p2, ⟨-, h2⟩, rfl⟩ := Chain.append_iff.1 hm
    obtain ⟨us, hus, hopen, hle⟩ := adds_bound hbound hv
    obtain ⟨ts, hts, hopen', hrest⟩ := adds_of_balances rfl rfl h2
    have hne : Rule.boundExpression ≠ .soslQuery := by decide
    have hnode : NoneOpenIn [.node .boundExpression us] :=
      noneOpenIn_node (noneOpen_of_ne hne us) hopen
    refine ⟨.node .boundExpression us :: ts, ?_, fun _ => ?_,
      fun hend => Nat.eq_zero_of_le_zero ?_⟩
    · rw [hts, hus]
      rfl
    · exact hnode.append (hopen' (absurd · Bool.false_ne_true))
    · rw [exposedAll_cons, exposed_node hne, openRounds_append, ← hrest hend]
      exact openRounds_mono (hle depth) _
  · refine adds_searchToken ?_ hm
    unfold Kind.roundsBehind
    split
    · exact absurd (beq_iff_eq.2 ‹_›) hopens
    · exact absurd (beq_iff_eq.2 ‹_›) hcloses
    · rfl

/-- A search leaves nothing open when it ends in front of the end of the text. -/
theorem adds_search (hs : p.stream.Spelled)
    (hm : BalancesAll (QueryPart.search.expand p.lookahead) p q) :
    AddsClosed (.soql .search) p q := by
  obtain ⟨p1, ⟨h1, -⟩, p2, ⟨h2, -⟩, p3, ⟨-, h3⟩, p4, ⟨-, h4⟩, p5, ⟨h5, -⟩, rfl⟩ := hm
  obtain rfl : p1 = p.build (·.start .soslQuery) := h1.single rfl
  obtain ⟨hfind, rfl⟩ := expected_of_calm h2
  obtain ⟨ts, hts, hopen, ks, hks, hle⟩ := adds_of_balances rfl rfl h3
  obtain ⟨us, hus, hopen', hrest⟩ := adds_of_balances rfl rfl h4
  obtain rfl := h5.single rfl
  have hplain : (p.lookahead.kind 0).isPlain = true :=
    Lookahead.isPlain_of_atWord hs hfind (by decide)
  have hall : NoneOpenIn (.token p.current :: (ts ++ us)) :=
    (noneOpenIn_token _).append ((hopen nofun).append (hopen' nofun))
  have hclosed : ¬ AtEnd p4 → NoneOpen .soslQuery (.token p.current :: (ts ++ us)) := by
    intro hend _
    have hword : (Tree.node .soslQuery (.token p.current :: (ts ++ us))).exposed =
        [p.lookahead.kind 0] ++ ks ++ exposedAll us := by
      rw [exposed, if_pos rfl, exposedFrom, exposed_token, hks, List.append_assoc]
      rfl
    rw [hword, openRounds_append, openRounds_append, openRounds_cons,
      Kind.roundsBehind_plain hplain, openRounds_nil, Nat.eq_zero_of_le_zero (hle 0)]
    exact hrest hend
  refine ⟨[.node .soslQuery (.token p.current :: (ts ++ us))], ?_, fun hend =>
    noneOpenIn_node (hclosed (hend rfl)) hall, _, rfl, hall, hclosed⟩
  rw [tree_build, hus, hts, ← Builder.addAll_append]
  exact Builder.finish_addAll_start p.tree _ (.token p.current :: (ts ++ us))

theorem balances_soql (hs : p.stream.Spelled) (part : QueryPart)
    (hm : BalancesAll (part.expand p.lookahead) p q) : Balances (.soql part) p q := by
  cases part with
  | search => exact fun _ => adds_search hs hm
  | searchTerm => exact fun _ => adds_searchTerm hm
  | searchBraces => exact fun _ => adds_searchBraces hm
  | searchRest depth => exact fun _ => adds_searchRest hm
  | _ =>
    obtain ⟨ts, hq, hts, hle⟩ := adds_part hm (QueryPart.fills_expand _ _ _ nofun)
      (QueryPart.turns hs _ nofun rfl) (.inl rfl)
    exact fun _ => ⟨ts, hq, fun _ => hts, fun _ => hle⟩

/-- A unit of members and statements takes the end of the text, which is no parenthesis. -/
theorem adds_anonymousUnit
    (hm : BalancesAll (DeclPart.anonymousUnit.expand p.lookahead) p q) :
    AddsClosed (.decl .anonymousUnit) p q := by
  obtain ⟨p1, ⟨h1, -⟩, p2, ⟨hrun, h2⟩, p3, ⟨h3, -⟩, p4, ⟨h4, -⟩, rfl⟩ := hm
  obtain rfl : p1 = p.build (·.start .anonymousUnit) := h1.single rfl
  obtain ⟨ts, hts, hopen, hle⟩ := adds_of_balances rfl rfl h2
  obtain rfl : p3 = p2.take := h3.single rfl
  obtain rfl := h4.single rfl
  have hne : Rule.anonymousUnit ≠ .soslQuery := nofun
  have hend : p2.current.kind = .eof := by
    have hatEnd : AtEnd p2 := hrun.atEnd rfl
    exact beq_iff_eq.1 ((isEof_current_iff p2).2 hatEnd)
  have hall : NoneOpenIn (ts ++ [Tree.token p2.current]) :=
    (hopen nofun).append (noneOpenIn_token _)
  refine ⟨[.node .anonymousUnit (ts ++ [Tree.token p2.current])], ?_,
    fun _ => noneOpenIn_node (noneOpen_of_ne hne _) hall, fun _ n => ?_⟩
  · have htake : p2.take.tree = p2.tree.addAll [.token p2.current] := rfl
    rw [tree_build, htake, hts, ← Builder.addAll_append]
    exact Builder.finish_addAll_start ..
  · rw [exposedAll_cons, exposedAll_nil, List.append_nil, exposed_node hne, exposedAll_append,
      exposedAll_cons, exposed_token, hend, openRounds_append]
    exact hle rfl n

theorem balances_decl (hs : p.stream.Spelled) (part : DeclPart)
    (hm : BalancesAll (part.expand p.lookahead) p q) : Balances (.decl part) p q := by
  have hadds : part ≠ .anonymousUnit → (Step.decl part).opensSearch = false →
      AddsClosed (.decl part) p q := by
    intro hu ho
    obtain ⟨ts, hq, hts, hle⟩ := adds_part hm (part.fills_expand _ _ ho) (part.turns hs hu)
      part.closesOne
    exact ⟨ts, hq, fun _ => hts, fun _ => hle⟩
  cases part with
  | anonymousUnit => exact fun _ => adds_anonymousUnit hm
  | _ => exact hadds nofun

end Parts

/-! ## All steps -/

section Law

variable {p p' q : Parser} {s : Step} {ss more : List Step}

theorem exists_takeMany (p : Parser) (n : Nat) : ∃ ts, (p.takeMany n).tree = p.tree.addAll ts ∧
    NoneOpenIn ts ∧ exposedAll ts = p.lookahead.kinds n := by
  induction n generalizing p with
  | zero => exact ⟨[], rfl, noneOpenIn_nil, rfl⟩
  | succ n ih =>
    obtain ⟨ts, hts, hopen, hkinds⟩ := ih p.take
    refine ⟨.token p.current :: ts, hts, (noneOpenIn_token _).append hopen, ?_⟩
    have hk : p.lookahead.kinds (n + 1) = [p.lookahead.kind 0] ++ p.take.lookahead.kinds n := by
      simp [Lookahead.kinds, List.range_succ_eq_map, Function.comp_def, kind_take]
    rw [exposedAll_cons, exposed_token, hkinds, hk]
    rfl

/-- An expected token leaves as much open as its word. -/
theorem openRounds_accepted {e : Expected} (hs : p.stream.Spelled)
    (he : e.accepts p.current = true) (hw : e ≠ .spelled "") (n : Nat) :
    openRounds n [p.current.kind] = openRounds n e.brackets := by
  have hnest := nest_accepted hs he hw
  cases e with
  | kind k =>
    have hk : p.current.kind = k := beq_iff_eq.1 he
    simp only [Expected.brackets, Kind.brackets]
    split
    · rw [openRounds_cons, hk, Kind.roundsBehind_plain ‹_›]
    · rw [hk]
  | _ => exact ClosesOne.openRounds_eq (.inl rfl) hnest n

theorem balances_perform (ha : SpelledCalm p s) (h : p.perform s = (p', .ok more))
    (hm : BalancesAll more p' q) : Balances s p q := by
  cases s with
  | start _ | wrap _ _ | finish =>
    cases h
    cases hm
    exact rfl
  | take n =>
    cases h
    cases hm
    obtain ⟨ts, hts, hopen, hkinds⟩ := exists_takeMany p n
    exact fun _ => ⟨ts, hts, fun _ => hopen, hkinds⟩
  | takeIf m =>
    cases h
    cases hm
    intro _
    split
    · rename_i hv
      have hkind : p.current.kind = .mark m := beq_iff_eq.1 hv
      refine ⟨[.token p.current], rfl, fun _ => noneOpenIn_token _, fun hn n => ?_⟩
      rw [exposedAll_cons, exposed_token, hkind]
      exact Nat.le_of_eq (Kind.roundsBehind_plain hn n)
    · exact ⟨[], rfl, fun _ => noneOpenIn_nil, fun _ n => Nat.le_refl _⟩
  | skip => exact absurd trivial (ha.calm rfl).1
  | progress since =>
    have hp : p.position ≠ since := (ha.calm rfl).1
    rw [perform, if_neg hp] at h
    cases h
    cases hm
    exact fun _ => ⟨[], rfl, fun _ => noneOpenIn_nil, fun _ n => Nat.le_refl _⟩
  | expect e =>
    obtain ⟨he, rfl, rfl⟩ := expect_calm ha.calm rfl h
    cases hm
    refine fun _ => ⟨[.token p.current], rfl, fun _ => noneOpenIn_token _, fun hn n => ?_⟩
    exact Nat.le_of_eq (openRounds_accepted ha.spelled he (bne_iff_ne.1 hn) n)
  | expectThen e next =>
    obtain ⟨he, rfl, rfl⟩ := expect_calm ha.calm rfl h
    obtain ⟨p1, ⟨-, hnext⟩, rfl⟩ := hm
    unfold Balances Step.shape
    by_cases hadds : next.shape.adds = true
    · rw [if_pos hadds]
      intro ho
      obtain ⟨hsearch, ho⟩ := Bool.or_eq_false_iff.1 ho
      have hno : next.isSearch = true → ¬ AtEnd q := fun hs => by
        rw [hs] at hsearch
        cases hsearch
      obtain ⟨ts, hts, hopen, hw⟩ := adds_of_balances hadds ho hnext
      refine ⟨.token p.current :: ts, hts, fun _ => (noneOpenIn_token _).append (hopen hno),
        fun hn => ?_⟩
      obtain ⟨hword, hn⟩ := Bool.and_eq_true_iff.1 hn
      exact openRounds_append_le
        (fun n => Nat.le_of_eq (openRounds_accepted ha.spelled he (bne_iff_ne.1 hword) n))
        (hw.le hn hno)
    · rw [if_neg hadds]
      trivial
  | complain c =>
    obtain ⟨hr, -⟩ := reportThen_ok h
    exact absurd rfl (ne_true_of_report ha.calm h hr)
  | endOfText =>
    have hend := h
    simp only [perform] at h
    split at h
    · rename_i he
      cases h
      cases hm
      refine fun _ => ⟨[.token p.current], rfl, fun _ => noneOpenIn_token _, fun _ n => ?_⟩
      rw [exposedAll_cons, exposed_token, show p.current.kind = .eof from beq_iff_eq.1 he]
      exact Nat.le_refl _
    · obtain ⟨hr, -⟩ := reportThen_ok h
      exact absurd rfl (ne_true_of_report ha.calm hend hr)
  | skipRest =>
    simp only [perform] at h
    split at h
    · cases h
      cases hm
      exact fun _ => ⟨[], rfl, fun _ => noneOpenIn_nil, fun _ n => Nat.le_refl _⟩
    · rename_i he
      exact absurd (Bool.eq_false_iff.2 he) (ha.calm rfl).1
  | typ part =>
    cases h
    obtain ⟨ts, hts, hopen, hle⟩ := adds_part hm (part.fills_expand _ _) part.turns (.inl rfl)
    exact fun _ => ⟨ts, hts, fun _ => hopen, fun _ => hle⟩
  | expr part => cases h; exact balances_expr ha.spelled part hm
  | soql part => cases h; exact balances_soql ha.spelled part hm
  | stmt part => cases h; exact balances_stmt ha.spelled part hm
  | decl part => cases h; exact balances_decl ha.spelled part hm

theorem balancesAll (h : Leads SpelledCalm ss p q) : BalancesAll ss p q :=
  h.chain_of_allowed fun ha hp _ hm => balances_perform ha hp hm

end Law

/-! ## Accepted searches -/

section Calls

variable {p q : Parser} {entry : Entry} {tree : Tree}

/-- The tree of a calm run is what its entry adds. -/
theorem noneOpenIn_of_calm (h : Leads SpelledCalm [entry.step] p.fresh q)
    (htree : q.tree = ⟨#[tree], []⟩) :
    ((entry = .search → ¬ AtEnd q) → NoneOpenIn [tree]) ∧
    (entry = .search → ∃ us, tree = .node .soslQuery us ∧ NoneOpenIn us) := by
  obtain ⟨q, ⟨-, hs⟩, rfl⟩ := balancesAll h
  have hentry : entry.step.shape.adds = true ∧ entry.step.opensSearch = false := by
    cases entry <;> exact ⟨rfl, rfl⟩
  obtain ⟨ts, hts, hopen, hw⟩ := adds_of_balances hentry.1 hentry.2 hs
  have hroot : (⟨ts.toArray, []⟩ : Builder) = ⟨#[tree], []⟩ := by
    rw [← htree, hts]
    exact ((Builder.addAll_ground #[] ts).trans (by simp)).symm
  rw [Builder.mk.injEq] at hroot
  obtain rfl : ts = [tree] := congrArg Array.toList hroot.1
  constructor
  · intro hend
    refine hopen fun hsearch => hend ?_
    cases entry <;> first | rfl | cases hsearch
  · rintro rfl
    obtain ⟨us, hus, hopen, -⟩ := hw
    exact ⟨us, (List.cons.inj hus).1, hopen⟩

/-- The searches of a calm run leave nothing open, apart from one that is called by itself
and runs up to the end of the text. -/
theorem openRounds_of_calm {search : Tree} (h : Leads SpelledCalm [entry.step] p.fresh q)
    (htree : q.tree = ⟨#[tree], []⟩) (hsearch : search ∈ tree.findAll .soslQuery) :
    openRounds 0 search.exposed = 0 ∨ entry = .search ∧ search = tree ∧ AtEnd q := by
  obtain ⟨hopen, hchildren⟩ := noneOpenIn_of_calm h htree
  by_cases hend : entry = .search → ¬ AtEnd q
  · obtain ⟨ts, rfl, hnone⟩ := (hopen hend tree List.mem_cons_self).of_mem_findAll hsearch
    exact .inl (hnone rfl)
  · rw [Classical.not_imp, Classical.not_not] at hend
    obtain ⟨us, rfl, hus⟩ := hchildren hend.1
    rw [findAll_node, if_pos rfl, List.mem_append, List.mem_flatMap] at hsearch
    rcases hsearch with hsearch | ⟨u, hu, hsearch⟩
    · exact .inr ⟨hend.1, List.mem_singleton.1 hsearch, hend.2⟩
    · obtain ⟨ts, rfl, hnone⟩ := (hus u hu).of_mem_findAll hsearch
      exact .inl (hnone rfl)

/-- No accepted search leaves a parenthesis open: when a call reports no error, each one that
is opened in a search of its tree is closed in that search, where those between the braces of
a term are not counted, and all of them are counted where no term has braces. Only a search
that is called by itself may end with the text instead. -/
theorem searches_leave_none_open {casing : Text.Casing} {text : String} (p : Parser)
    (hs : TokenStream.ofString casing text = .ok p.stream) {entry : Entry}
    (he : (p.parse entry).1.errorCount = p.errorCount) :
    ∃ q tree, p.parse entry = (q, .ok tree) ∧ ∀ search ∈ tree.findAll .soslQuery,
      (openRounds 0 search.exposed = 0 ∧ (search.Everywhere PlainTerm →
        openRounds 0 (search.leaves.map (·.token.kind)) = 0)) ∨
      entry = .search ∧ search = tree ∧ AtEnd q := by
  rw [errorCount_parse] at he
  rcases run_ends p entry with ⟨r, hrun⟩ | ⟨r, e, hthrown, -⟩
  · obtain ⟨tree, hc, -⟩ := exists_call_of_finished hrun
    refine ⟨_, tree, hc.returns, fun search hsearch => ?_⟩
    rw [hrun] at he
    have hroot : r.tree = ⟨#[tree], []⟩ := by
      have hone := hc.oneRoot
      rwa [hrun] at hone
    have hcalm := calm_of_guarded (guarded_entry (leads_of_runWithin hrun)) rfl he
    have hspelled : Leads SpelledCalm [entry.step] p.fresh r := hcalm.onStream.mono fun p' s h =>
      ⟨h.1, h.2 ▸ TokenStream.spelled_ofString hs⟩
    exact (openRounds_of_calm hspelled hroot hsearch).imp_left fun hopen =>
      ⟨hopen, fun hplain => exposed_eq_leaves hplain ▸ hopen⟩
  · have hlt : p.fresh.errorCount < r.errorCount := errorCount_lt_of_thrown hthrown
    rw [hthrown] at he
    exact absurd he (Nat.ne_of_gt hlt)

theorem searches_leave_none_open_bound :
    ∃ s q tree, TokenStream.ofString .folded "[FIND {a(} RETURNING A(b WHERE c = :d(e)))]" = .ok s ∧
      ((ofStream s).parse .expression).1.errorCount = 0 ∧
      (ofStream s).parse .expression = (q, .ok tree) ∧
      ∃ search, tree.findAll .soslQuery = [search] ∧
        search.exposed.countP (· == .mark .lParen) = 2 ∧ openRounds 0 search.exposed = 0 := by
  have hread : ∃ s, TokenStream.ofString .folded
      "[FIND {a(} RETURNING A(b WHERE c = :d(e)))]" = .ok s ∧
      (((ofStream s).parse .expression).1.errorCount,
        ((ofStream s).parse .expression).2.toOption.map fun tree =>
          (tree.findAll .soslQuery).map fun search =>
            search.exposed.countP (· == .mark .lParen)) = (0, some [2]) :=
    TokenStream.exists_ofString (by decide +kernel)
  obtain ⟨s, hs, hread⟩ := hread
  obtain ⟨he, hcounts⟩ := Prod.mk.inj hread
  obtain ⟨q, tree, hparse, hsearches⟩ := searches_leave_none_open (ofStream s) hs he
  rw [hparse] at hcounts
  obtain ⟨search, hfind, hcount⟩ := List.map_eq_singleton_iff.1 (Option.some.inj hcounts)
  have hopen := hsearches search (hfind ▸ List.mem_cons_self)
  exact ⟨s, q, tree, hs, he, hparse, search, hfind, hcount, (hopen.resolve_right nofun).1⟩

/-- Every parenthesis that is closed is open before, and none is left open. -/
def RoundsMatch (ks : List Kind) : Prop :=
  (∀ js, js <+: ks → js.count (.mark .rParen) ≤ js.count (.mark .lParen)) ∧
  ks.count (.mark .lParen) = ks.count (.mark .rParen)

/-- A call reports no error, and in a search of its tree the parentheses do not match. -/
def AcceptsUnmatched (entry : Entry) (text : String) : Prop :=
  ∃ s q tree search, TokenStream.ofString .folded text = .ok s ∧
    (ofStream s).parse entry = (q, .ok tree) ∧ q.errorCount = 0 ∧
    search ∈ tree.findAll .soslQuery ∧ ¬ RoundsMatch (search.leaves.map (·.token.kind))

theorem acceptsUnmatched_of_counts {entry : Entry} {text : String}
    (h : ∃ s, TokenStream.ofString .folded text = .ok s ∧
      ((ofStream s).parse entry).1.errorCount = 0 ∧
      (((ofStream s).parse entry).2.toOption.any fun tree =>
        (tree.findAll .soslQuery).any fun search =>
          (search.leaves.map (·.token.kind)).count (.mark .lParen) !=
            (search.leaves.map (·.token.kind)).count (.mark .rParen)) = true) :
    AcceptsUnmatched entry text := by
  obtain ⟨s, hs, he, hany⟩ := h
  obtain ⟨q, tree, hc, -⟩ := exists_call (p := ofStream s) rfl entry
  rw [hc.returns] at he hany
  obtain ⟨search, hsearch, hcounts⟩ := List.any_eq_true.1 hany
  exact ⟨s, q, tree, search, hs, hc.returns, he, hsearch, fun h => bne_iff_ne.1 hcounts h.2⟩

/-- In accepted searches parentheses need not match: one that closes nothing is passed over,
the words between braces are free, and so is what stands up to the end of the text. -/
theorem accepted_searches_unmatched :
    AcceptsUnmatched .search "find 'a' )" ∧ AcceptsUnmatched .expression "[find 'a' )]" ∧
      AcceptsUnmatched .expression "[find {(}]" ∧ AcceptsUnmatched .search "find 'a' (" := by
  refine ⟨?_, ?_, ?_, ?_⟩
  all_goals
    exact acceptsUnmatched_of_counts (TokenStream.exists_ofString (by decide +kernel))

end Calls

end Parser

end ApexSyntax
