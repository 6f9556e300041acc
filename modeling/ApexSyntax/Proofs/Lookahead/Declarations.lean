-- Declarations of variables are foretold by a type and a name ahead. The parser reads what
-- was foretold when no modifier stands there. Some words are modifiers and names of types:
-- what such a word starts is foretold as well, but the word is read as a modifier, and
-- behind it the name or the type is missing.
import ApexSyntax.Proofs.Lookahead.Types

namespace ApexSyntax

/-- A mark that stands behind the name of a variable where one is foretold. -/
def Mark.followsName : Mark → Bool
  | assign | semi | comma | colon => true
  | _ => false

namespace Lookahead

/-! ## Types by their first tokens -/

variable {v : Lookahead} {n m : Nat} {k : Mark}

theorem isTypeName_of_typeEnd (h : v.typeEnd? n = some m) : v.isTypeName n = true := by
  rw [typeEnd?, typeEndFrom] at h
  split at h
  · assumption
  · cases h

theorem typeEnd?_eq_none (h : v.isTypeName n = false) : v.typeEnd? n = none := by
  cases ht : v.typeEnd? n with
  | none => rfl
  | some m =>
    rw [isTypeName_of_typeEnd ht] at h
    cases h

/-- A name that nothing goes on is a whole type. -/
theorem typeEnd?_name (h : v.isTypeName n = true) (hlt : v.kind (n + 1) ≠ .mark .lt)
    (hdot : v.kind (n + 1) ≠ .mark .dot) (hbrack : v.kind (n + 1) ≠ .mark .lBrack) :
    v.typeEnd? n = some (n + 1) :=
  Spans.typeEnd_eq (.type (.plain h) .noDot .noBracket)
    ⟨fun _ => hlt, fun _ hd => absurd hd hdot, fun hb => absurd hb hbrack⟩

theorem isTypeName_of_mark (h : v.kind n = .mark k) : v.isTypeName n = false :=
  Bool.eq_false_iff.2 fun hn => (kind_ne_of_isTypeName hn).2 k h

theorem isTypeName_of_isIdentifier (h : v.isIdentifier n = true) : v.isTypeName n = true := by
  rw [isTypeName, Token.isTypeName, show (v.nth n).isIdentifier = true from h]
  rfl

theorem isIdentifier_of_mark (h : v.kind n = .mark k) : v.isIdentifier n = false := by
  rw [Bool.eq_false_iff]
  intro hn
  exact (kind_ne_of_isTypeName (isTypeName_of_isIdentifier hn)).2 k h

theorem modifierLength_of_mark (h : v.kind n = .mark k) : v.modifierLength n = 0 := by
  simp [modifierLength, h, Kind.isModifier]

/-- What is foretold is a type, a name behind it, and a mark behind the name. -/
theorem typedNameAhead_iff {follows : Kind → Bool} :
    v.typedNameAhead n follows = true ↔
      ∃ m, v.typeEnd? n = some m ∧ v.isIdentifier m = true ∧ follows (v.kind (m + 1)) = true := by
  unfold typedNameAhead
  cases h : v.typeEnd? n with
  | none => simp
  | some m => simp

/-- A modifier is one word, or two of which the second is `sharing`. -/
theorem modifierLength_cases (h : v.modifierLength n ≠ 0) : v.modifierLength n = 1 ∨
    v.modifierLength n = 2 ∧ v.kind (n + 1) = .keyword .sharingKw := by
  revert h
  unfold modifierLength
  split
  case h_4 =>
    split
    · exact fun _ => .inl rfl
    · exact fun h => absurd rfl h
  all_goals
    split
    · exact fun _ => .inr ⟨rfl, by simp_all⟩
    · exact fun h => absurd rfl h

/-- Behind a modifier that is foretold as a type stands a mark, or a name and then a mark. -/
theorem behind_modifier (hmod : v.modifierLength 0 ≠ 0) (h : v.typeEnd? 0 = some n)
    (hn : v.isIdentifier n = true) (hk : v.kind (n + 1) = .mark k) (hfollows : k.followsName = true) :
    (∃ l, v.kind (v.modifierLength 0) = .mark l ∧ l ≠ .atSign) ∨
      v.modifierLength 0 = 1 ∧ v.isIdentifier 1 = true ∧ v.kind 2 = .mark k := by
  have hname : v.isTypeName 0 = true := isTypeName_of_typeEnd h
  have hplain : (∀ l, v.kind 1 = .mark l → l = .atSign) → n = 1 := by
    intro hl
    have hone : v.typeEnd? 0 = some 1 := typeEnd?_name hname (fun h => nomatch hl _ h)
      (fun h => nomatch hl _ h) (fun h => nomatch hl _ h)
    exact Option.some.inj (h.symm.trans hone)
  rcases modifierLength_cases hmod with hone | ⟨htwo, hsharing⟩
  · by_cases hmark : ∃ l, v.kind 1 = .mark l ∧ l ≠ .atSign
    · obtain ⟨l, hl, hl'⟩ := hmark
      exact .inl ⟨l, by rw [hone, hl], hl'⟩
    · obtain rfl := hplain fun l hl => Classical.not_not.1 fun hl' => hmark ⟨l, hl, hl'⟩
      exact .inr ⟨hone, hn, hk⟩
  · obtain rfl := hplain fun l hl => nomatch hsharing.symm.trans hl
    refine .inl ⟨k, by rw [htwo, hk], ?_⟩
    rintro rfl
    cases hfollows

end Lookahead

namespace Parser

/-! ## The tree of a type -/

/-- The node of a type over the next `n` tokens, all of them matched. -/
structure TypeOver (v : Lookahead) (n : Nat) (t : Tree) : Prop where
  rule : t.rule? = some .typeRef
  tokens : tokensOf t.leaves = v.stream.between v.position (v.position + n)
  matched : t.errorCount = 0

section Types

variable {p q : Parser} {n : Nat} {t : Tree}

/-- Where nothing is reported, only matched tokens become leaves. -/
theorem errorCount_eq_zero_of_runs {s : Step} (h : Runs [s] p q) (hs : s.plain = true)
    (hp : p.recovering = false) (he : q.errorCount = p.errorCount) (ht : q.tree = p.tree.add t) :
    t.errorCount = 0 := by
  obtain ⟨_, ⟨_, hcareful⟩, rfl⟩ := h.chain fun hp _ hm => careful_perform hp hm
  have hguarded : Guarded [s] p q := (hcareful (.inl (careful_of_plain hs))).1
  have hcount := ((silent_of_guarded hguarded).keeps hp he).2
  rw [skippedCount, skippedCount, ht, Builder.leaves_add, List.countP_append] at hcount
  rw [Tree.errorCount]
  omega

/-- The step of a type adds one node. -/
theorem exists_typeRef (h : Runs [.typ .type] p q) :
    ∃ ts, q.tree = p.tree.add (.node .typeRef ts) := by
  obtain ⟨_, _, hp, hm⟩ := h.inv
  cases hp
  obtain ⟨p', hstart, hm⟩ := hm.uncons
  obtain rfl := hstart.single rfl
  have hopened : (p.build (·.start .typeRef)).tree = (p.tree.start .typeRef).addAll [] := rfl
  have hcloses : closes 0 [.typ .name, .typ .dottedNames, .typ .dimensions] = true := rfl
  exact node_of_closes hcloses hm.shaped hopened

/-- A type that is scanned is read, and becomes a node over its tokens. -/
theorem exists_typeOver (hp : p.recovering = false) (h : p.lookahead.typeEnd? 0 = some n) :
    ∃ q t, Runs [.typ .type] p q ∧ Stands p n q ∧ q.tree = p.tree.add t ∧
      TypeOver p.lookahead n t := by
  obtain ⟨q, hrun, hq⟩ := readsType_of_typeEnd h
  have hruns : Runs [.typ .type] p q := leads_of_runWithin hrun
  obtain ⟨ts, htree⟩ := exists_typeRef hruns
  refine ⟨q, .node .typeRef ts, hruns, hq, htree, rfl, ?_,
    errorCount_eq_zero_of_runs hruns rfl hp hq.errorCount htree⟩
  have htokens := hruns.reads.2
  rw [htree, Builder.leaves_add, tokensOf_append, hq.position] at htokens
  exact List.append_cancel_left htokens

end Types

/-! ## No modifier ahead -/

section Declarations

variable {p q q' : Parser} {n j k : Nat} {rest : List Step}

theorem comesTo_steps {s : Step} {more ts : List Step} (hs : q.perform s = (q, .ok more))
    (h : ComesTo (more ++ rest) q ts q') : ComesTo (s :: rest) q ts q' := .perform trivial hs h

/-- Where no modifier stands, the parser goes on with what stands behind the modifiers. -/
theorem comesTo_modifiers (hat : q.lookahead.kind 0 ≠ .mark .atSign)
    (hm : q.lookahead.modifierLength 0 = 0) : ComesTo (.decl .modifiers :: rest) q rest q := by
  have hnone : DeclPart.modifiers.expand q.lookahead = [] := by
    simp [DeclPart.expand, Lookahead.atMark, hat, hm]
  exact comesTo_steps (by rw [perform, hnone]) (.here _ q)

theorem kind_ne_atSign_of_isTypeName (h : q.lookahead.isTypeName 0 = true) :
    q.lookahead.kind 0 ≠ .mark .atSign :=
  (Lookahead.kind_ne_of_isTypeName h).2 _

/-- A type that no modifier starts is read as a type. -/
theorem exists_comesTo_type (rest : List Step) (hp : p.recovering = false)
    (hm : p.lookahead.modifierLength 0 = 0) (h : p.lookahead.typeEnd? 0 = some n) :
    ∃ q t, ComesTo (.decl .modifiers :: .typ .type :: rest) p rest q ∧ Stands p n q ∧
      q.tree = p.tree.add t ∧ TypeOver p.lookahead n t := by
  obtain ⟨q, t, hrun, hq, htree, ht⟩ := exists_typeOver hp h
  have hat := kind_ne_atSign_of_isTypeName (Lookahead.isTypeName_of_typeEnd h)
  exact ⟨q, t, (comesTo_modifiers hat hm).trans (hrun.comes rest), hq, htree, ht⟩

/-- An expected token that stands there is read. -/
theorem comesTo_expect (rest : List Step) {e : Expected} (h : Stands p n q)
    (he : e.accepts (p.lookahead.nth n) = true) (hk : p.lookahead.kind n ≠ .eof) :
    ComesTo (.expect e :: rest) q rest q.take ∧ Stands p (n + 1) q.take ∧
      q.take.tree = q.tree.add (.token (p.lookahead.nth n)) := by
  have hcur : q.current = p.lookahead.nth n := h.nth_eq 0
  have hexpect : q.perform (.expect e) = (q.take, .ok []) := by
    rw [perform, expect, hcur, if_pos he]
  exact ⟨.perform trivial hexpect (.here _ _), h.take hk, by rw [tree_take, hcur]⟩

theorem kind_ne_eof_of_isIdentifier (h : p.lookahead.isIdentifier n = true) :
    p.lookahead.kind n ≠ .eof :=
  (Lookahead.kind_ne_of_isTypeName (Lookahead.isTypeName_of_isIdentifier h)).1

/-- The parser reads a declaration of variables up to the name of the first one: a type of so
many tokens and the token behind it. -/
def ReadsVariable (p : Parser) (n : Nat) : Prop :=
  ∃ q t, ComesTo [.stmt .localVariables] p
      [.decl .variableValue, .finish, .decl .moreVariables, .finish] q ∧
    Stands p (n + 1) q ∧ TypeOver p.lookahead n t ∧
    q.tree = (((p.tree.start .localVariableDeclaration).add t).start .variableDeclarator).add
      (.token (p.lookahead.nth n))

/-- The parser reads the control of a loop over a collection up to the collection: a type of
so many tokens, the name behind it and the colon behind the name. -/
def ReadsEach (p : Parser) (n : Nat) : Prop :=
  ∃ q t, ComesTo [.stmt .loopControl] p [.expr .expression, .finish] q ∧
    Stands p (n + 2) q ∧ TypeOver p.lookahead n t ∧
    q.tree = (((p.tree.start .forControl).add t).add (.token (p.lookahead.nth n))).add
      (.token (p.lookahead.nth (n + 1)))

/-- The tree of a declaration whose type and first name are read. -/
theorem ReadsVariable.tree_eq {r : Parser} (h : p.ReadsVariable n)
    (hr : Runs [.stmt .localVariables] p r) :
    ∃ t us, TypeOver p.lookahead n t ∧
      r.tree = p.tree.add (.node .localVariableDeclaration (t :: us)) := by
  obtain ⟨q, t, hq, -, ht, htree⟩ := h
  have hrest : ShapedAll [.decl .variableValue, .finish, .decl .moreVariables, .finish] q r :=
    (hr.behind hq).shaped
  obtain ⟨q₁, ⟨us, hus⟩, q₂, hfinish, q₃, ⟨ws, hws⟩, q₄, hfinish', rfl⟩ := hrest
  have hq₂ : q₂.tree = q₁.tree.finish := hfinish
  have hr : r.tree = q₃.tree.finish := hfinish'
  refine ⟨t, .node .variableDeclarator (.token (p.lookahead.nth n) :: us) :: ws, ht, ?_⟩
  have hvariable : q₁.tree = (((p.tree.start .localVariableDeclaration).add t).start
      .variableDeclarator).addAll (.token (p.lookahead.nth n) :: us) := by
    rw [hus, htree]
    rfl
  have hall : q₃.tree = (p.tree.start .localVariableDeclaration).addAll
      (t :: .node .variableDeclarator (.token (p.lookahead.nth n) :: us) :: ws) := by
    rw [hws, hq₂, hvariable, Builder.finish_addAll_start]
    rfl
  rw [hr, hall, Builder.finish_addAll_start]

theorem readsVariable_of_typeEnd (hp : p.recovering = false)
    (hm : p.lookahead.modifierLength 0 = 0) (h : p.lookahead.typeEnd? 0 = some n)
    (hn : p.lookahead.isIdentifier n = true) : p.ReadsVariable n := by
  obtain ⟨q, t, hq, hstands, htree, ht⟩ :=
    exists_comesTo_type (p := p.build (·.start .localVariableDeclaration))
      [.decl .variables, .finish] hp hm h
  have hname : Stands p n (q.build (·.start .variableDeclarator)) :=
    ⟨(Quietly.build p _).trans (hstands.toQuietly.trans (.build q _)), hstands.position⟩
  obtain ⟨hexpect, hstands', htree'⟩ := comesTo_expect
    [.decl .variableValue, .finish, .decl .moreVariables, .finish] hname (e := .identifier)
    hn (kind_ne_eof_of_isIdentifier hn)
  refine ⟨_, t, ?_, hstands', ht, ?_⟩
  · refine comesTo_steps rfl (comesTo_start (hq.trans ?_))
    exact comesTo_steps rfl (comesTo_steps rfl (comesTo_start hexpect))
  · rw [htree', tree_build, htree]
    rfl

theorem readsEach_of_typeEnd (hp : p.recovering = false)
    (hahead : p.lookahead.eachLoopAhead = true) (hm : p.lookahead.modifierLength 0 = 0)
    (h : p.lookahead.typeEnd? 0 = some n) (hn : p.lookahead.isIdentifier n = true)
    (hcolon : p.lookahead.kind (n + 1) = .mark .colon) : p.ReadsEach n := by
  obtain ⟨q, t, hq, hstands, htree, ht⟩ :=
    exists_comesTo_type (p := p.build (·.start .forControl))
      [.expect .identifier, .expect (.mark .colon), .expr .expression, .finish] hp hm h
  have hname : Stands p n q := ⟨(Quietly.build p _).trans hstands.toQuietly, hstands.position⟩
  obtain ⟨hexpect, hname', htree'⟩ := comesTo_expect
    [.expect (.mark .colon), .expr .expression, .finish] hname (e := .identifier)
    hn (kind_ne_eof_of_isIdentifier hn)
  obtain ⟨hexpect', hcolon', htree''⟩ := comesTo_expect
    [.expr .expression, .finish] hname' (e := .mark .colon)
    (beq_iff_eq.2 hcolon) (by simp [hcolon])
  have hsteps : StmtPart.loopControl.expand p.lookahead =
      [.start .forControl, .decl .modifiers, .typ .type, .expect .identifier,
        .expect (.mark .colon), .expr .expression, .finish] := by
    simp [StmtPart.expand, loopControlSteps, hahead]
  refine ⟨_, t, ?_, hcolon', ht, ?_⟩
  · refine comesTo_steps (by rw [perform, hsteps]) (comesTo_start ?_)
    exact hq.trans (hexpect.trans hexpect')
  · rw [htree'', htree', htree]
    rfl

/-! ## A modifier ahead -/

/-- The steps come to one that refuses the token there, and nothing is reported before. -/
def ComesToRefusal (p : Parser) (ss : List Step) : Prop :=
  ∃ q ts, ComesTo ss p ts q ∧ Quietly p q ∧ Refuses q ts

theorem Refuses.append {ts : List Step} (h : Refuses q ts) (us : List Step) :
    Refuses q (ts ++ us) := by
  obtain ⟨e, rest, rfl, he⟩ := h
  exact ⟨e, rest ++ us, rfl, he⟩

namespace ComesToRefusal

variable {ss ts : List Step}

theorem before (hc : ComesTo ss p ts q) (hq : Quietly p q) (h : ComesToRefusal q ts) :
    ComesToRefusal p ss := by
  obtain ⟨q', us, hus, hquiet, href⟩ := h
  exact ⟨q', us, hc.trans hus, hq.trans hquiet, href⟩

/-- What is refused is reported, whoever listens. -/
theorem reports {s : Step} (h : ComesToRefusal p [s]) (hs : s.plain = true)
    (hp : p.recovering = false) :
    ∃ q ending, runWithin p.fuel [s] p = (q, ending) ∧ ending ≠ .exhausted ∧
      p.errorCount < q.errorCount := by
  obtain ⟨q, ts, hc, hquiet, href⟩ := h
  obtain ⟨q', ending, hrun, hne⟩ := exists_ends_of_plain hs p
  obtain ⟨k, hk⟩ := hc.runWithin_behind hrun hne
  have hlt := href.errorCount_lt (hquiet.recovering hp) hk hne
  rw [hquiet.errorCount] at hlt
  exact ⟨q', ending, hrun, hne, hlt⟩

/-- No type starts with a mark. -/
theorem type (h : q.lookahead.typeEnd? 0 = none) : ComesToRefusal q (.typ .type :: rest) := by
  have hends := q.lookahead.scansEnd.type 0
  rw [h] at hends
  obtain ⟨n, q', ts, hts, hstands, href⟩ :=
    follows_of_ends hends ((Stands.refl q).build (·.start .typeRef))
  exact ⟨q', ts ++ rest, (comesTo_type.trans hts).append rest, hstands.toQuietly,
    href.append rest⟩

end ComesToRefusal

/-- A modifier is read where one stands. -/
theorem exists_comesTo_modifier (rest : List Step) (hstands : Stands p n q)
    (hat : q.lookahead.kind 0 ≠ .mark .atSign) (hk : q.lookahead.modifierLength 0 = k)
    (h0 : 0 < k) (hle : k ≤ q.lookahead.left) :
    ∃ q', ComesTo (.decl .modifiers :: rest) q (.decl .modifiers :: rest) q' ∧
      Stands p (n + k) q' := by
  obtain ⟨k, rfl⟩ := Nat.exists_eq_succ_of_ne_zero (Nat.ne_of_gt h0)
  have hsteps : DeclPart.modifiers.expand q.lookahead =
      [.start .modifier, .take (k + 1), .finish, .decl .modifiers] := by
    simp [DeclPart.expand, Lookahead.atMark, hat, hk]
  refine ⟨((q.build (·.start .modifier)).takeMany (k + 1)).build (·.finish), ?_, ?_, ?_⟩
  · exact comesTo_steps (by rw [perform, hsteps])
      (comesTo_start (.perform trivial rfl (comesTo_finish (.here _ _))))
  · exact hstands.toQuietly.trans ((Quietly.build q _).trans ((Quietly.takeMany _ _).trans
      (.build _ _)))
  · rw [position_build, position_takeMany (p := q.build (·.start .modifier)) hle, position_build,
      hstands.position]
    omega

/-- At a mark no modifier and no type is read. -/
theorem refusal_of_mark {m : Mark} (hstands : Stands p n q) (hm : p.lookahead.kind n = .mark m)
    (hat : m ≠ .atSign) : ComesToRefusal q (.decl .modifiers :: .typ .type :: rest) := by
  have hk : q.lookahead.kind 0 = .mark m := by rw [hstands.kind_eq 0, Nat.add_zero, hm]
  refine .before (comesTo_modifiers ?_ (Lookahead.modifierLength_of_mark hk)) (.refl q) (.type ?_)
  · rw [hk]
    simpa using hat
  · exact Lookahead.typeEnd?_eq_none (Lookahead.isTypeName_of_mark hk)

/-- Behind a modifier that is foretold as a type, the type or the name is missing. -/
theorem refusal_of_modifier {m : Mark} (next : List Step) (hp : p.recovering = false)
    (hmod : p.lookahead.modifierLength 0 ≠ 0) (h : p.lookahead.typeEnd? 0 = some n)
    (hn : p.lookahead.isIdentifier n = true) (hm : p.lookahead.kind (n + 1) = .mark m)
    (hfollows : m.followsName = true)
    (hnext : ∀ q, q.lookahead.isIdentifier 0 = false → ComesToRefusal q next) :
    ComesToRefusal p (.decl .modifiers :: .typ .type :: next) := by
  have hat := kind_ne_atSign_of_isTypeName (Lookahead.isTypeName_of_typeEnd h)
  rcases Lookahead.behind_modifier hmod h hn hm hfollows with ⟨l, hl, hl'⟩ | ⟨hone, hname, hm⟩
  · have hle : p.lookahead.modifierLength 0 < p.lookahead.left := by
      refine Lookahead.lt_left ?_
      rw [hl]
      exact nofun
    obtain ⟨q, hq, hstands⟩ := exists_comesTo_modifier (.typ .type :: next) (Stands.refl p)
      hat rfl (Nat.pos_of_ne_zero hmod) (Nat.le_of_lt hle)
    rw [Nat.zero_add] at hstands
    exact .before hq hstands.toQuietly (refusal_of_mark hstands hl hl')
  · have hm' : m ≠ .lt ∧ m ≠ .dot ∧ m ≠ .lBrack ∧ m ≠ .atSign := by
      refine ⟨?_, ?_, ?_, ?_⟩ <;> rintro rfl <;> cases hfollows
    have hleft : 2 < p.lookahead.left := Lookahead.lt_left (by rw [hm]; exact nofun)
    obtain ⟨q, hq, hstands⟩ := exists_comesTo_modifier (.typ .type :: next) (Stands.refl p)
      hat hone Nat.one_pos (by omega)
    refine .before hq hstands.toQuietly ?_
    have hname' : q.lookahead.isTypeName 0 = true := by
      rw [hstands.isTypeName_eq 0]
      exact Lookahead.isTypeName_of_isIdentifier hname
    have hk1 : q.lookahead.kind 1 = .mark m := by rw [hstands.kind_eq 1, hm]
    have hat' := kind_ne_atSign_of_isTypeName hname'
    by_cases hmod' : q.lookahead.modifierLength 0 = 0
    · have hone' : q.lookahead.typeEnd? 0 = some 1 :=
        Lookahead.typeEnd?_name hname' (by simp [hk1, hm']) (by simp [hk1, hm'])
          (by simp [hk1, hm'])
      obtain ⟨q', t, hq', hstands', -⟩ :=
        exists_comesTo_type next (hstands.recovering hp) hmod' hone'
      have hmark : q'.lookahead.kind 0 = .mark m := by rw [hstands'.kind_eq 0, hk1]
      exact .before hq' hstands'.toQuietly (hnext q' (Lookahead.isIdentifier_of_mark hmark))
    · -- Two modifiers, and then the mark.
      have hlength : q.lookahead.modifierLength 0 = 1 :=
        (Lookahead.modifierLength_cases hmod').resolve_right fun h => nomatch hk1.symm.trans h.2
      have hleft' : 1 < q.lookahead.left := Lookahead.lt_left (by rw [hk1]; exact nofun)
      obtain ⟨q', hq', hstands'⟩ := exists_comesTo_modifier (.typ .type :: next)
        (Stands.refl q) hat' hlength Nat.one_pos (Nat.le_of_lt hleft')
      exact .before hq' hstands'.toQuietly (refusal_of_mark hstands' hk1 hm'.2.2.2)

/-- An identifier that is expected is refused where none stands. -/
theorem refusal_of_expect (h : q.lookahead.isIdentifier 0 = false) :
    ComesToRefusal q (.expect .identifier :: rest) :=
  ⟨q, _, .here _ q, .refl q, _, _, rfl, h⟩

end Declarations

/-! ## Agreement -/

section Agreement

variable {p : Parser} {n : Nat}

/-- A run of the step reports something, whoever listens. -/
def Reports (p : Parser) (s : Step) : Prop :=
  ∃ q ending, runWithin p.fuel [s] p = (q, ending) ∧ ending ≠ .exhausted ∧
    p.errorCount < q.errorCount

theorem localVariables_report {m : Mark} (hp : p.recovering = false)
    (hmod : p.lookahead.modifierLength 0 ≠ 0) (h : p.lookahead.typeEnd? 0 = some n)
    (hn : p.lookahead.isIdentifier n = true) (hm : p.lookahead.kind (n + 1) = .mark m)
    (hfollows : m.followsName = true) : p.Reports (.stmt .localVariables) := by
  refine ComesToRefusal.reports ?_ rfl hp
  refine .before (comesTo_steps rfl (comesTo_start (.here _ _))) (Quietly.build p _) ?_
  refine refusal_of_modifier [.decl .variables, .finish] hp hmod h hn hm hfollows ?_
  intro q hq
  refine .before (comesTo_steps rfl (comesTo_steps rfl (comesTo_start (.here _ _))))
    (Quietly.build q _) (refusal_of_expect hq)

theorem loopControl_reports {m : Mark} (hp : p.recovering = false)
    (hahead : p.lookahead.eachLoopAhead = true)
    (hmod : p.lookahead.modifierLength 0 ≠ 0) (h : p.lookahead.typeEnd? 0 = some n)
    (hn : p.lookahead.isIdentifier n = true) (hm : p.lookahead.kind (n + 1) = .mark m)
    (hfollows : m.followsName = true) : p.Reports (.stmt .loopControl) := by
  refine ComesToRefusal.reports ?_ rfl hp
  have hsteps : p.perform (.stmt .loopControl) = (p, .ok (.start .forControl ::
      [.decl .modifiers, .typ .type, .expect .identifier, .expect (.mark .colon),
        .expr .expression, .finish])) := by
    simp [perform, StmtPart.expand, loopControlSteps, hahead]
  refine .before (comesTo_steps hsteps (comesTo_start (.here _ _))) (Quietly.build p _) ?_
  exact refusal_of_modifier (p := p.build (·.start .forControl))
    [.expect .identifier, .expect (.mark .colon), .expr .expression, .finish] hp hmod h
    hn hm hfollows fun q hq => refusal_of_expect hq

/-- What is foretold is read. Where a type and a name are foretold to declare local variables
or to go through a collection, and the type starts with no modifier, the parser takes the
tokens that were scanned as the type and the next one as the name, and the colon of a loop
behind it; up to there it reports nothing. Where a modifier stands that is also the name of a
type, it is read as a modifier, and what is missing behind it is reported. -/
theorem declarations_read_as_foretold (hp : p.recovering = false)
    (hfinal : p.lookahead.atKeyword .finalKw = false) :
    (p.lookahead.localVariableAhead = true → ∃ n, p.lookahead.typeEnd? 0 = some n ∧
      p.lookahead.isIdentifier n = true ∧
      (p.lookahead.modifierLength 0 = 0 → p.ReadsVariable n) ∧
      (p.lookahead.modifierLength 0 ≠ 0 → p.Reports (.stmt .localVariables))) ∧
    (p.lookahead.eachLoopAhead = true → ∃ n, p.lookahead.typeEnd? 0 = some n ∧
      p.lookahead.isIdentifier n = true ∧
      (p.lookahead.modifierLength 0 = 0 → p.ReadsEach n) ∧
      (p.lookahead.modifierLength 0 ≠ 0 → p.Reports (.stmt .loopControl))) := by
  constructor
  · intro hahead
    rw [Lookahead.localVariableAhead, hfinal, Bool.false_or, Lookahead.typedNameAhead_iff] at hahead
    obtain ⟨n, htype, hname, hfollows⟩ := hahead
    obtain ⟨m, hm, hfollows⟩ : ∃ m, p.lookahead.kind (n + 1) = .mark m ∧ m.followsName = true := by
      simp only [Bool.or_eq_true, beq_iff_eq] at hfollows
      rcases hfollows with (hk | hk) | hk <;> exact ⟨_, hk, rfl⟩
    exact ⟨n, htype, hname, fun hmod => readsVariable_of_typeEnd hp hmod htype hname,
      fun hmod => localVariables_report hp hmod htype hname hm hfollows⟩
  · intro hahead
    have hahead' := hahead
    rw [Lookahead.eachLoopAhead, hfinal, if_neg Bool.false_ne_true,
      Lookahead.typedNameAhead_iff] at hahead'
    obtain ⟨n, htype, hname, hcolon⟩ := hahead'
    rw [beq_iff_eq] at hcolon
    exact ⟨n, htype, hname, fun hmod => readsEach_of_typeEnd hp hahead hmod htype hname hcolon,
      fun hmod => loopControl_reports hp hahead hmod htype hname hcolon rfl⟩

theorem declarations_read_as_foretold_generic :
    (∃ s, TokenStream.ofString .folded "List<a.B>[] sharing = c;" = .ok s ∧
      (ofStream s).recovering = false ∧ (ofStream s).lookahead.atKeyword .finalKw = false ∧
      (ofStream s).lookahead.localVariableAhead = true ∧ (ofStream s).ReadsVariable 8) ∧
    (∃ s, TokenStream.ofString .folded "Map<Id, with> before : d)" = .ok s ∧
      (ofStream s).recovering = false ∧ (ofStream s).lookahead.atKeyword .finalKw = false ∧
      (ofStream s).lookahead.eachLoopAhead = true ∧ (ofStream s).ReadsEach 6) ∧
    ∃ s, TokenStream.ofString .folded "with sharing : d)" = .ok s ∧
      (ofStream s).recovering = false ∧ (ofStream s).lookahead.atKeyword .finalKw = false ∧
      (ofStream s).lookahead.eachLoopAhead = true ∧ (ofStream s).Reports (.stmt .loopControl) := by
  refine ⟨?_, ?_, ?_⟩
  · have hread : ∃ s, TokenStream.ofString .folded "List<a.B>[] sharing = c;" = .ok s ∧
        (let v := (ofStream s).lookahead
        v.atKeyword .finalKw = false ∧ v.localVariableAhead = true ∧ v.modifierLength 0 = 0 ∧
          v.typeEnd? 0 = some 8) :=
      TokenStream.exists_ofString (by decide +kernel)
    obtain ⟨s, hs, hfinal, hahead, hmod, htype⟩ := hread
    obtain ⟨n, hn, -, hreads, -⟩ :=
      (declarations_read_as_foretold (p := ofStream s) rfl hfinal).1 hahead
    obtain rfl : 8 = n := Option.some.inj (htype.symm.trans hn)
    exact ⟨s, hs, rfl, hfinal, hahead, hreads hmod⟩
  · have hread : ∃ s, TokenStream.ofString .folded "Map<Id, with> before : d)" = .ok s ∧
        (let v := (ofStream s).lookahead
        v.atKeyword .finalKw = false ∧ v.eachLoopAhead = true ∧ v.modifierLength 0 = 0 ∧
          v.typeEnd? 0 = some 6) :=
      TokenStream.exists_ofString (by decide +kernel)
    obtain ⟨s, hs, hfinal, hahead, hmod, htype⟩ := hread
    obtain ⟨n, hn, -, hreads, -⟩ :=
      (declarations_read_as_foretold (p := ofStream s) rfl hfinal).2 hahead
    obtain rfl : 6 = n := Option.some.inj (htype.symm.trans hn)
    exact ⟨s, hs, rfl, hfinal, hahead, hreads hmod⟩
  · have hread : ∃ s, TokenStream.ofString .folded "with sharing : d)" = .ok s ∧
        (let v := (ofStream s).lookahead
        v.atKeyword .finalKw = false ∧ v.eachLoopAhead = true ∧ v.modifierLength 0 ≠ 0) :=
      TokenStream.exists_ofString (by decide +kernel)
    obtain ⟨s, hs, hfinal, hahead, hmod⟩ := hread
    obtain ⟨n, -, -, -, hreports⟩ :=
      (declarations_read_as_foretold (p := ofStream s) rfl hfinal).2 hahead
    exact ⟨s, hs, rfl, hfinal, hahead, hreports hmod⟩

/-- A type that is named like a modifier is foretold, and not read. -/
theorem transient_not_read_as_type :
    ∃ s, TokenStream.ofString .folded "transient x = 1;" = .ok s ∧
      (ofStream s).recovering = false ∧ (ofStream s).lookahead.atKeyword .finalKw = false ∧
      (ofStream s).lookahead.localVariableAhead = true ∧
      (ofStream s).lookahead.typeEnd? 0 = some 1 ∧
      (ofStream s).lookahead.isIdentifier 1 = true ∧ ¬(ofStream s).ReadsVariable 1 := by
  have hread : ∃ s, TokenStream.ofString .folded "transient x = 1;" = .ok s ∧
      (let p := ofStream s
      p.lookahead.atKeyword .finalKw = false ∧ p.lookahead.localVariableAhead = true ∧
        p.lookahead.typeEnd? 0 = some 1 ∧ p.lookahead.isIdentifier 1 = true ∧
        (runWithin 100 [.stmt .localVariables] p).2 = .finished ∧
        (runWithin 100 [.stmt .localVariables] p).1.tree.ground.toList.map
          (fun t => t.children.head?.bind Tree.rule?) = [some .modifier]) :=
    TokenStream.exists_ofString (by decide +kernel)
  obtain ⟨s, hs, hfinal, hahead, htype, hname, hfinished, hmodifier⟩ := hread
  refine ⟨s, hs, rfl, hfinal, hahead, htype, hname, fun h => ?_⟩
  have hruns : Runs [.stmt .localVariables] (ofStream s)
      (runWithin 100 [.stmt .localVariables] (ofStream s)).1 :=
    leads_of_runWithin (Prod.ext rfl hfinished)
  obtain ⟨t, us, ht, htree⟩ := h.tree_eq hruns
  have hground : (runWithin 100 [.stmt .localVariables] (ofStream s)).1.tree.ground =
      #[.node .localVariableDeclaration (t :: us)] := by
    rw [htree]
    rfl
  rw [hground] at hmodifier
  have hrule : t.rule? = some .modifier := by simpa [Tree.children] using hmodifier
  rw [ht.rule] at hrule
  cases hrule

end Agreement

end Parser

end ApexSyntax
