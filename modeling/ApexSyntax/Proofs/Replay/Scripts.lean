-- Scripts are read member by member. No member can go on behind its end, and none starts
-- with a word that goes on another, so a script behind a script is read as it is alone.
import ApexSyntax.Proofs.Layout.Parsers
import ApexSyntax.Proofs.Printing.Pieces
import ApexSyntax.Proofs.Replay.Windows

namespace ApexSyntax

/-! ## The start of a member -/

section Starts

variable {v : Lookahead}

theorem kind_of_goesOn {k : Kind} (h : k.goesOn = true) :
    k = .keyword .elseKw ∨ k = .keyword .catchKw ∨ k = .keyword .finallyKw := by
  unfold Kind.goesOn at h
  split at h
  · exact .inl rfl
  · exact .inr (.inl rfl)
  · exact .inr (.inr rfl)
  · cases h

theorem not_isTypeName_of_goesOn (h : (v.kind 0).goesOn = true) : v.isTypeName 0 = false := by
  rcases kind_of_goesOn h with hk | hk | hk <;>
    simp [Lookahead.isTypeName, Token.isTypeName, Token.isIdentifier, Kind.isSoftKeyword,
      Keyword.isSoft, show (v.nth 0).kind = _ from hk]

theorem typeEnd?_of_goesOn (h : (v.kind 0).goesOn = true) : v.typeEnd? 0 = none := by
  rw [Lookahead.typeEnd?, Lookahead.typeEndFrom, not_isTypeName_of_goesOn h]
  rfl

theorem memberAhead_of_goesOn (h : (v.kind 0).goesOn = true) : v.memberAhead = false := by
  have ht := typeEnd?_of_goesOn h
  rw [Lookahead.memberAhead, Lookahead.memberAheadFrom]
  rcases kind_of_goesOn h with hk | hk | hk <;>
    simp [Lookahead.modifierLength, Lookahead.declarationAhead, Kind.isModifier,
      Kind.startsDeclaration, hk, ht]

/-- No statement starts with a word that goes on another one. -/
theorem statement_of_goesOn (h : (v.kind 0).goesOn = true) :
    StmtPart.statement.expand v = [.start .statement, .complain .noAlternative, .skip, .finish] := by
  have ht := typeEnd?_of_goesOn h
  have hn := not_isTypeName_of_goesOn h
  rw [Lookahead.isTypeName, Token.isTypeName, Bool.or_assoc, Bool.or_eq_false_iff] at hn
  have hi : v.isIdentifier 0 = false := hn.1
  rcases kind_of_goesOn h with hk | hk | hk <;>
    simp [StmtPart.expand, statementSteps, Lookahead.localVariableAhead, Lookahead.typedNameAhead,
      Lookahead.atKeyword, Kind.isDml, Kind.startsExpression, Kind.followsCast, Kind.isLiteral, hk,
      ht, hi]

end Starts

/-! ## One text behind another -/

theorem keepsWords_placeless : KeepsWords Token.placeless where
  kind h := (Token.placeless_eq_iff.1 h).1
  word h := (Token.placeless_eq_iff.1 h).2.2

/-- The token with more tokens in front of it. -/
def Token.behind (n : Nat) (t : Token) : Token := { t with index := n + t.index }

namespace TokenStream

variable {a b s : TokenStream} {i : Nat}

/-- The tokens of one stream, and those of another behind them. Where they stand may change,
but angles of one kind that stand side by side touch as they did before. -/
structure Joins (s a b : TokenStream) : Prop where
  visible : s.visible.map Token.placeless =
    a.visible.map Token.placeless ++ b.visible.map Token.placeless
  first : a.AnglesIn s 0
  second : b.AnglesIn s a.visible.size

namespace Joins

theorem size_eq (h : s.Joins a b) : s.visible.size = a.visible.size + b.visible.size := by
  simpa using congrArg Array.size h.visible

theorem placeless_first (h : s.Joins a b) (hi : i < a.visible.size) :
    (s.nth i).placeless = (a.nth i).placeless := by
  rw [placeless_nth, placeless_nth, h.visible]
  simp [Array.getD, hi, Nat.lt_add_right]

theorem placeless_second (h : s.Joins a b) (i : Nat) :
    (s.nth (i + a.visible.size)).placeless = (b.nth i).placeless := by
  rw [placeless_nth, placeless_nth, h.visible]
  simp [Array.getD, Nat.add_comm i]

end Joins

/-- The tokens of one stream behind those of another, numbered on. -/
def append (a b : TokenStream) : TokenStream :=
  ofTokens (a.tokens ++ b.tokens.map (Token.behind a.tokens.size)) b.eof (by
    intro t ht
    rcases Array.mem_append.1 ht with ht | ht
    · exact a.kind_tokens t ht
    · obtain ⟨u, hu, rfl⟩ := Array.mem_map.1 ht
      exact b.kind_tokens u hu)

theorem visible_append (a b : TokenStream) :
    (a.append b).visible = a.visible ++ b.visible.map (Token.behind a.tokens.size) := by
  have htokens : (a.append b).tokens = a.tokens ++ b.tokens.map (Token.behind a.tokens.size) := rfl
  rw [a.visible_eq, b.visible_eq, (a.append b).visible_eq]
  rw [htokens, ← Array.toList_inj]
  simp [Token.behind, Token.isHidden, List.filter_map, Function.comp_def]

theorem joins_append (a b : TokenStream) : (a.append b).Joins a b where
  visible := by
    rw [visible_append, Array.map_append, Array.map_map]
    rfl
  first := by
    intro i m _ h0 h1
    have hnth : ∀ j, j < a.visible.size → (a.append b).nth (j + 0) = a.nth j := by
      intro j hj
      simp [nth, visible_append, Array.getD, hj, Nat.lt_add_right]
    rw [hnth i (a.lt_of_kind_mark h0), hnth (i + 1) (a.lt_of_kind_mark h1)]
  second := by
    intro i m _ h0 h1
    have hnth : ∀ j, j < b.visible.size → (a.append b).nth (j + a.visible.size) =
        Token.behind a.tokens.size (b.nth j) := by
      intro j hj
      simp [nth, visible_append, Array.getD, hj, Nat.add_comm j]
    rw [hnth i (b.lt_of_kind_mark h0), hnth (i + 1) (b.lt_of_kind_mark h1)]
    simp only [Token.behind]
    omega

end TokenStream

namespace Parser

section Members

variable {p q : Parser} {r : Rule}

/-- A calm run of members starts with no word that goes on a member. -/
theorem not_goesOn_of_member (h : Leads Tame [.decl (.blockMember r)] p q) :
    (p.lookahead.kind 0).goesOn = false := by
  apply Bool.eq_false_iff.2
  intro hg
  obtain ⟨p', more, hp, hm⟩ := h.inv
  have hexp : (DeclPart.blockMember r).expand p.lookahead =
      [.start r, .stmt .statement, .finish] := by
    simp only [DeclPart.expand, memberAhead_of_goesOn hg]
    rfl
  rw [perform, hexp] at hp
  cases hp
  obtain ⟨p1, h1, hm⟩ := hm.uncons
  obtain rfl := h1.single rfl
  obtain ⟨p2, h2, _⟩ := hm.uncons
  obtain ⟨p3, more, hp, h3⟩ := h2.inv
  rw [perform, statement_of_goesOn (v := (p.build (·.start r)).lookahead) hg] at hp
  cases hp
  exact not_calm_of_refuses h3 rfl

theorem not_goesOn_of_members (h : Leads Tame [.decl .anonymousMembers] p q) :
    (p.lookahead.kind 0).goesOn = false := by
  obtain ⟨p', more, hp, hm⟩ := h.inv
  cases hp
  simp only [DeclPart.expand] at hm
  split at hm
  · rename_i hk
    rw [beq_iff_eq.1 hk]
    rfl
  · split at hm
    · rename_i hk
      rw [beq_iff_eq.1 hk]
      rfl
    · obtain ⟨p1, h1, _⟩ := hm.uncons
      exact not_goesOn_of_member h1

end Members

/-! ## Members among others -/

section Scripts

variable {f : Token → Token} {b c : Builder} {t s : TokenStream} {d : Nat} {p p' q r : Parser}
  {st : Step} {more : List Step}

/-- The members between two parsers are read in another stream as well, and what is read
there behind them belongs to the same list. -/
def ReadsOn (f : Token → Token) (b c : Builder) (s : TokenStream) (d : Nat) (p q : Parser) :
    Prop :=
  ∀ r, Copies f b c s d 0 p r → ∃ r', Copies f b c s d 0 q r' ∧ Quietly r r' ∧
    ∀ r'', Runs [.decl .anonymousMembers] r' r'' → Runs [.decl .anonymousMembers] r r''

/-- A stream holds another from a place on, and behind it no word that goes on a member. -/
structure Seam (f : Token → Token) (t s : TokenStream) (d : Nat) : Prop where
  keeps : KeepsWords f
  window : t.Window f s d
  angles : t.AnglesIn s d
  spelled : t.Spelled
  behind : (s.nth (t.visible.size + d)).kind.goesOn = false

/-- Nothing goes on a member behind which a calm run of members starts. -/
theorem Seam.not_goesOn (h : Seam f t s d) (hp : p.stream = t)
    (hle : p.position ≤ t.visible.size) (hrun : Leads Tame [.decl .anonymousMembers] p q) :
    (s.nth (p.position + d)).kind.goesOn = false := by
  rcases Nat.lt_or_eq_of_le hle with hlt | heq
  · rw [h.keeps.kind (h.window _ hlt), ← hp]
    exact not_goesOn_of_members hrun
  · rw [heq]
    exact h.behind

theorem Seam.ofJoins_first {a : TokenStream} (h : s.Joins t a) (hs : t.Spelled)
    (hg : (a.nth 0).kind.goesOn = false) : Seam Token.placeless t s 0 where
  keeps := keepsWords_placeless
  window _ hi := h.placeless_first hi
  angles := h.first
  spelled := hs
  behind := by
    rw [Nat.add_comm, keepsWords_placeless.kind (h.placeless_second 0)]
    exact hg

theorem Seam.ofJoins_second {a : TokenStream} (h : s.Joins a t) (hs : t.Spelled) :
    Seam Token.placeless t s a.visible.size where
  keeps := keepsWords_placeless
  window i _ := h.placeless_second i
  angles := h.second
  spelled := hs
  behind := by
    have hsize : s.visible.size = t.visible.size + a.visible.size := by
      rw [h.size_eq, Nat.add_comm]
    rw [TokenStream.nth_of_le (Nat.le_of_eq hsize), TokenStream.kind_eof]
    rfl

theorem Copies.expand_members (hc : Copies f b c s d 0 p r)
    (hk : r.lookahead.kind 0 = p.lookahead.kind 0) :
    DeclPart.anonymousMembers.expand r.lookahead =
      (DeclPart.anonymousMembers.expand p.lookahead).map (Step.shifted d) := by
  have hpos : r.lookahead.position = p.lookahead.position + d := hc.position
  simp [DeclPart.expand, Lookahead.atMark, hk, hpos, Step.shifted,
    apply_ite (List.map (Step.shifted d))]

/-- One turn of the list: a stray semicolon or a member, and the members behind it. -/
theorem readsOn_turn (hs : Seam f p.stream s d)
    (hm : Chain (fun st p' q => Leads (fun p' st => Tame p' st ∧ p'.stream = p.stream) [st] p' q ∧
      (st = .decl .anonymousMembers → ReadsOn f b c s d p' q))
      (DeclPart.anonymousMembers.expand p.lookahead) p q) : ReadsOn f b c s d p q := by
  intro r hc
  by_cases he : p.lookahead.kind 0 = .eof
  · have hexp : DeclPart.anonymousMembers.expand p.lookahead = [] := by
      simp [DeclPart.expand, he]
    rw [hexp] at hm
    cases hm
    exact ⟨r, hc, .refl r, fun _ h => h⟩
  have hcur : f (s.nth (p.position + d)) = f p.current := hs.window _ ((kind_ne_eof_iff p).1 he)
  have hk : r.lookahead.kind 0 = p.lookahead.kind 0 := by
    rw [hc.lookahead_eq]
    exact hs.keeps.kind hcur
  have hexp := hc.expand_members hk
  by_cases hsemi : p.lookahead.atMark .semi = true
  · have hturn : DeclPart.anonymousMembers.expand p.lookahead =
        [.take 1, .decl .anonymousMembers] := by
      simp [DeclPart.expand, he, hsemi]
    rw [hturn] at hm hexp
    obtain ⟨p1, ⟨h1, _⟩, q, ⟨_, hrest⟩, rfl⟩ := hm
    obtain rfl := h1.single rfl
    obtain ⟨r', hc', hq, hon⟩ := hrest rfl r.take (hc.take hs.keeps hcur)
    refine ⟨r', hc', (Quietly.take r).trans hq, fun r'' h => ?_⟩
    refine runs_part (by rw [perform, hexp]) ?_
    exact (runs_one rfl).append (hon r'' h)
  · have hturn : DeclPart.anonymousMembers.expand p.lookahead =
        [.decl (.blockMember .anonymousBlockMember), .progress p.lookahead.position,
          .decl .anonymousMembers] := by
      simp [DeclPart.expand, he, hsemi]
    rw [hturn] at hm hexp
    obtain ⟨p1, ⟨h1, _⟩, p2, ⟨h2, _⟩, q, ⟨h3, hrest⟩, rfl⟩ := hm
    have hsealed := sealed_of_tame (h1.mono fun _ _ h => h.1) rfl
    have hne : p1.position ≠ p.lookahead.position := Nat.ne_of_gt hsealed.moved
    obtain rfl : p2 = p1 := h2.single (by rw [perform, if_neg hne])
    have hg := hs.not_goesOn h1.moves.stream hsealed.position_le (h3.mono fun _ _ h => h.1)
    obtain ⟨r1, hr1, hc1, hq1⟩ := hc.replay_sealed hs.keeps hs.window hs.spelled hsealed
      (hsealed.seesOperators hs.keeps hs.window hs.angles hs.spelled) hg rfl
    obtain ⟨r', hc', hq, hon⟩ := hrest rfl r1 hc1
    refine ⟨r', hc', hq1.trans hq, fun r'' h => ?_⟩
    have hne' : r1.position ≠ p.lookahead.position + d := by
      rw [hc1.position]
      exact fun h => hne (Nat.add_right_cancel h)
    have hprogress : r1.perform (.progress (p.lookahead.position + d)) = (r1, .ok []) := by
      rw [perform, if_neg hne']
    have hrun : Runs [.decl (.blockMember .anonymousBlockMember),
        .progress (p.lookahead.position + d), .decl .anonymousMembers] r r'' :=
      hr1.append ((runs_one hprogress).append (hon r'' h))
    exact runs_part (by rw [perform, hexp]; rfl) hrun

/-- The members of a script are read on in every stream that holds them. -/
theorem readsOn_of_members (hs : Seam f p.stream s d)
    (h : Leads Tame [.decl .anonymousMembers] p q) : ReadsOn f b c s d p q := by
  have hlaw := h.onStream.chain_of_allowed (C := fun st p' q =>
    st = .decl .anonymousMembers → ReadsOn f b c s d p' q) ?_
  · obtain ⟨q, ⟨_, hon⟩, rfl⟩ := hlaw
    exact hon rfl
  · rintro st p1 p2 more q1 ⟨_, hstream⟩ hp _ hm rfl
    cases hp
    exact readsOn_turn (by rwa [hstream]) (by simpa only [hstream] using hm)

end Scripts

/-! ## Whole scripts -/

section Units

variable {p q r : Parser} {a b s : TokenStream}

/-- The parser as it starts on the members of a script. -/
def atMembers (p : Parser) : Parser := p.fresh.build (·.start .anonymousUnit)

/-- The parser behind a unit of which all parts are read. -/
def behindUnit (q : Parser) : Parser := q.take.build (·.finish)

theorem parse_of_members (h : Runs [.decl .anonymousMembers] p.atMembers q) :
    p.parse .anonymousUnit =
      ({ q.behindUnit with tree := Builder.empty }, .ok q.behindUnit.tree.root) := by
  have hsteps : Runs (DeclPart.anonymousUnit.expand p.lookahead) p.fresh q.behindUnit := by
    refine .append (runs_one rfl) (.append h ?_)
    exact .append (runs_one rfl) (runs_one rfl)
  exact parse_of_run (run_of_runs (runs_part rfl hsteps)) nofun

/-- Where no error is reported, the members are read calmly, up to the end of the text. -/
theorem exists_members (hp : p.position = 0)
    (he : (p.parse .anonymousUnit).1.errorCount = p.errorCount) :
    ∃ q, Leads Tame [.decl .anonymousMembers] p.atMembers q ∧ q.stream = p.stream ∧
      q.position = p.stream.visible.size := by
  rw [errorCount_parse] at he
  rcases run_ends p .anonymousUnit with ⟨r, hrun⟩ | ⟨r, e, hthrown, _⟩
  · rw [hrun] at he
    have hcalm := calm_of_guarded (guarded_entry (leads_of_runWithin hrun)) rfl he
    obtain ⟨p', more, hperf, hm⟩ := hcalm.inv
    cases hperf
    obtain ⟨p1, h1, hm⟩ := hm.uncons
    obtain rfl := h1.single rfl
    obtain ⟨q, hq, _⟩ := hm.uncons
    have hstream : q.stream = p.stream := hq.moves.stream
    have hwithin : q.position = p.position ∨ q.position ≤ p.stream.visible.size := hq.moves.within
    have hend : q.stream.visible.size ≤ q.position := hq.atEnd rfl
    rw [hstream] at hend
    have htame := tame_of_calm hq (holds_of_steady (by simp [Step.Steady, Step.plain]))
    exact ⟨q, htame, hstream, by omega⟩
  · have hlt : p.fresh.errorCount < r.errorCount := errorCount_lt_of_thrown hthrown
    rw [hthrown] at he
    exact absurd he (Nat.ne_of_gt hlt)

theorem runs_members_of_atEnd (h : AtEnd q) : Runs [.decl .anonymousMembers] q q := by
  have hk : q.lookahead.kind 0 = .eof := (q.stream.kind_nth_eq_eof_iff _).2 h
  have hnone : DeclPart.anonymousMembers.expand q.lookahead = [] := by simp [DeclPart.expand, hk]
  exact runs_part (by rw [perform, hnone]) (.done q)

theorem root_behindUnit {rule : Rule} {ts : List Tree} (hend : AtEnd q)
    (h : q.tree = (Builder.empty.start rule).addAll ts) :
    q.behindUnit.tree.root = .node rule (ts ++ [Tree.token q.stream.eof]) := by
  have hcur : q.current = q.stream.eof := TokenStream.nth_of_le hend
  have htree : q.behindUnit.tree =
      ((Builder.empty.start rule).addAll (ts ++ [Tree.token q.stream.eof])).finish := by
    rw [Builder.addAll_append, ← h, ← hcur]
    rfl
  rw [htree, Builder.finish_addAll_start]
  rfl

/-- Scripts can be put behind each other. When two scripts are parsed without an error, so
is the one behind the other, and its members are those of the first and then those of the
second. -/
theorem scripts_concatenate (h : s.Joins a b) (ha : a.Spelled) (hb : b.Spelled)
    (hp : p.stream = a ∧ p.position = 0) (hq : q.stream = b ∧ q.position = 0)
    (hr : r.stream = s ∧ r.position = 0)
    (hpe : (p.parse .anonymousUnit).1.errorCount = p.errorCount)
    (hqe : (q.parse .anonymousUnit).1.errorCount = q.errorCount) :
    (r.parse .anonymousUnit).1.errorCount = r.errorCount ∧
      ∃ ts us vs, (p.parse .anonymousUnit).2 = .ok (.node .anonymousUnit (ts ++ [.token a.eof])) ∧
        (q.parse .anonymousUnit).2 = .ok (.node .anonymousUnit (us ++ [.token b.eof])) ∧
        (r.parse .anonymousUnit).2 = .ok (.node .anonymousUnit (vs ++ [.token s.eof])) ∧
        vs.map (Tree.map Token.placeless) = (ts ++ us).map (Tree.map Token.placeless) := by
  obtain ⟨rfl, hp0⟩ := hp
  obtain ⟨rfl, hq0⟩ := hq
  obtain ⟨rfl, hr0⟩ := hr
  obtain ⟨p', hpm, hps, hpend⟩ := exists_members hp0 hpe
  obtain ⟨q', hqm, hqs, hqend⟩ := exists_members hq0 hqe
  have hg : (q.stream.nth 0).kind.goesOn = false := by
    rw [← hq0]
    exact not_goesOn_of_members (p := q.atMembers) hqm
  have hcopy : Copies Token.placeless p.atMembers.tree r.atMembers.tree r.stream 0 0 p.atMembers
      r.atMembers := ⟨rfl, hr0.trans hp0.symm, .refl _ _ _⟩
  obtain ⟨r1, hcopy1, hquiet1, hon1⟩ :=
    readsOn_of_members (p := p.atMembers) (.ofJoins_first h ha hg) hpm _ hcopy
  -- The second script starts where the first has ended, and adds its members there.
  have hcopy' : Copies Token.placeless q.atMembers.tree r1.tree r.stream p.stream.visible.size 0
      q.atMembers r1 := by
    refine ⟨hcopy1.stream, ?_, .refl _ _ _⟩
    rw [hcopy1.position, hpend, show q.atMembers.position = 0 from hq0, Nat.add_comm]
  obtain ⟨r2, hcopy2, hquiet2, hon2⟩ :=
    readsOn_of_members (p := q.atMembers) (.ofJoins_second h hb) hqm r1 hcopy'
  have hrend : AtEnd r2 := by
    rw [AtEnd, hcopy2.stream, hcopy2.position, hqend, h.size_eq]
    omega
  have hrun : Runs [.decl .anonymousMembers] r.atMembers r2 :=
    hon1 r2 (hon2 r2 (runs_members_of_atEnd hrend))
  have hquiet := hquiet1.trans hquiet2
  obtain ⟨ts, vs, hts, hvs, hsame⟩ := hcopy1.tree.added
  obtain ⟨us, ws, hus, hws, hsame'⟩ := hcopy2.tree.added
  rw [hvs, ← Builder.addAll_append] at hws
  refine ⟨?_, ts, us, vs ++ ws, ?_, ?_, ?_, hsame.append hsame'⟩
  · rw [parse_of_members hrun]
    exact hquiet.errorCount
  · have hend : AtEnd p' := Nat.le_of_eq (by rw [hps, hpend])
    rw [parse_of_members (hpm.mono fun _ _ _ => trivial), root_behindUnit hend hts, hps]
  · have hend : AtEnd q' := Nat.le_of_eq (by rw [hqs, hqend])
    rw [parse_of_members (hqm.mono fun _ _ _ => trivial), root_behindUnit hend hus, hqs]
  · rw [parse_of_members hrun, root_behindUnit hrend hws, hcopy2.stream]

theorem scripts_concatenate_conditional : ∃ a b,
    TokenStream.ofString .folded "Integer x = 8 >> 2; if (x > 1) f(x);" = .ok a ∧
      TokenStream.ofString .folded "void g() { try { h(); } finally { } } ;" = .ok b ∧
      a.visible.size = 19 ∧ b.visible.size = 17 ∧
      ((ofStream (a.append b)).parse .anonymousUnit).1.errorCount = 0 ∧
      ∃ ts us vs,
        ((ofStream a).parse .anonymousUnit).2 = .ok (.node .anonymousUnit (ts ++ [.token a.eof])) ∧
        ((ofStream b).parse .anonymousUnit).2 = .ok (.node .anonymousUnit (us ++ [.token b.eof])) ∧
        ((ofStream (a.append b)).parse .anonymousUnit).2 =
          .ok (.node .anonymousUnit (vs ++ [.token (a.append b).eof])) ∧
        vs.map (Tree.map Token.placeless) = (ts ++ us).map (Tree.map Token.placeless) := by
  obtain ⟨a, ha⟩ := TokenStream.ofString_ok .folded "Integer x = 8 >> 2; if (x > 1) f(x);"
  obtain ⟨b, hb⟩ := TokenStream.ofString_ok .folded "void g() { try { h(); } finally { } } ;"
  have haparse : (TokenStream.ofString .folded
      "Integer x = 8 >> 2; if (x > 1) f(x);").toOption.map (fun s =>
        (s.visible.size, ((ofStream s).parse .anonymousUnit).1.errorCount)) = some (19, 0) := by
    decide +kernel
  have hbparse : (TokenStream.ofString .folded
      "void g() { try { h(); } finally { } } ;").toOption.map (fun s =>
        (s.visible.size, ((ofStream s).parse .anonymousUnit).1.errorCount)) = some (17, 0) := by
    decide +kernel
  rw [ha] at haparse
  rw [hb] at hbparse
  obtain ⟨hasize, hae⟩ := Prod.mk.inj (Option.some.inj haparse)
  obtain ⟨hbsize, hbe⟩ := Prod.mk.inj (Option.some.inj hbparse)
  obtain ⟨he, hmembers⟩ := scripts_concatenate (p := ofStream a) (q := ofStream b)
    (r := ofStream (a.append b)) (a.joins_append b) (TokenStream.spelled_ofString ha)
    (TokenStream.spelled_ofString hb) ⟨rfl, rfl⟩ ⟨rfl, rfl⟩ ⟨rfl, rfl⟩ hae hbe
  exact ⟨a, b, ha, hb, hasize, hbsize, he, hmembers⟩

end Units

end Parser

end ApexSyntax
