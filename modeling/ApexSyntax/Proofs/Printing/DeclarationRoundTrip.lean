-- Printed declarations are read back. What a member is gets decided behind its modifiers by
-- scanning its type; the induction is over members and the types that are nested in them,
-- and says that one more member may stand in front of whatever is read as members.
import ApexSyntax.Proofs.Printing.DeclarationParts

namespace ApexSyntax

open ApexSyntax.Parser

namespace Printed

variable {x y z : Printed} {xs : List Printed} {item again next : Step} {rest : List Piece}
  {e : Expected} {a : Piece}

theorem append_assoc (x y z : Printed) : x ++ y ++ z = x ++ (y ++ z) :=
  congrArg₂ Printed.mk (List.append_assoc ..) (List.append_assoc ..)

/-- An expected token, and what comes behind it. -/
theorem ReadBy.then (h : y.ReadBy [next] rest) (ha : e.accepts a.token = true) :
    (flat [a] ++ y).ReadBy [.expectThen e next] rest := by
  intro p hp
  have hp' : p.lookahead.Before (a :: (y.pieces ++ rest)) := hp
  have hacc : e.accepts p.current = true := (hp'.accepts_eq e 0).trans ha
  have htake := Gives.take hp'
  obtain ⟨q, hq, hg⟩ := h p.take htake.before
  have hperform : p.perform (.expectThen e next) = (p.take, .ok [next]) := by
    simp only [perform, expect, hacc, if_true]
  exact ⟨q, .perform trivial hperform hq (.done q), htake.trans hg⟩

/-! ## Items up to a brace -/

/-- A list of items goes on with one more item, or ends with a closing brace. -/
structure ReadsItems (item again : Step) : Prop where
  more : ∀ p : Parser, p.lookahead.kind 0 ∉ [.mark .rBrace, .mark .semi, .eof] →
    p.perform again = (p, .ok [item, .progress p.position, again])
  brace : ∀ p : Parser, p.lookahead.kind 0 = .mark .rBrace →
    p.perform again = (p, .ok [.expect (.mark .rBrace)])

theorem readsItems_untilBrace
    (h : ∀ p : Parser, p.perform again = (p, .ok (untilBrace p.lookahead item again))) :
    ReadsItems item again where
  more p hk := by
    simp only [List.mem_cons, List.not_mem_nil, or_false, not_or] at hk
    rw [h]
    simp [untilBrace, Lookahead.atMark, hk]
    rfl
  brace p hk := by
    rw [h]
    simp [untilBrace, Lookahead.atMark, hk]

/-- What an item starts with. -/
structure OpensItem (rest : List Piece) : Prop where
  kind : (pieceAt rest 0).kind ∉ [.mark .rBrace, .mark .semi, .eof]
  goesOn : (pieceAt rest 0).kind.goesOn = false

/-- One more item may stand in front of what a list of items goes on with. -/
def Turn (again : Step) (x : Printed) : Prop :=
  ∀ y rest, y.ReadBy [again] rest → (pieceAt (y.pieces ++ rest) 0).kind.goesOn = false →
    (x ++ y).ReadBy [again] rest ∧ (pieceAt ((x ++ y).pieces ++ rest) 0).kind.goesOn = false

theorem turn_stray
    (h : ∀ p : Parser, p.perform again = (p, .ok (untilBrace p.lookahead item again))) :
    Turn again (mark .semi) := by
  intro y rest hy hg
  refine ⟨?_, rfl⟩
  have hpart : (mark .semi ++ y).ReadBy [.take 1, again] rest := readBy_take.append hy
  refine hpart.part fun p hp => ?_
  have hk : p.lookahead.kind 0 = .mark .semi := hp.kind_eq 0
  rw [h]
  simp [untilBrace, Lookahead.atMark, hk]

/-- Behind an item something was read, so the list goes on. -/
theorem turn_item (h : ReadsItems item again) (hopen : ∀ rest, OpensItem (x.pieces ++ rest))
    (hx : ∀ rest, (pieceAt rest 0).kind.goesOn = false → x.ReadBy [item] rest) :
    Turn again x := by
  intro y rest hy hg
  have hpieces : (x ++ y).pieces ++ rest = x.pieces ++ (y.pieces ++ rest) := List.append_assoc ..
  have hne : x.pieces ≠ [] := fun hnil => by
    have hk := (hopen []).kind
    rw [hnil] at hk
    exact hk (by decide)
  rw [hpieces]
  refine ⟨fun p hp => ?_, (hopen _).goesOn⟩
  rw [hpieces] at hp
  obtain ⟨q, hq, hgq⟩ := hx _ hg p hp
  obtain ⟨r, hr, hgr⟩ := hy q hgq.before
  have hmoved : q.position ≠ p.position := by
    intro heq
    have hlook : q.lookahead = p.lookahead := by rw [lookahead, lookahead, hgq.stream, heq]
    have hlen : (y.pieces ++ rest).length = x.pieces.length + (y.pieces ++ rest).length := by
      rw [← List.length_append, ← hp.left_eq, ← hgq.before.left_eq, hlook]
    have hpos := List.length_pos_iff.2 hne
    omega
  have hprogress : Runs [.progress p.position] q q := by
    refine runs_one ?_
    rw [perform, if_neg hmoved]
  have hk := (hopen (y.pieces ++ rest)).kind
  rw [← hp.kind_eq 0] at hk
  exact ⟨r, runs_part (h.more p hk) (hq.append (hprogress.append hr)), hgq.trans hgr⟩

theorem turns_row (hxs : ∀ x ∈ xs, Turn again x) (hy : y.ReadBy [again] rest)
    (hg : (pieceAt (y.pieces ++ rest) 0).kind.goesOn = false) :
    (row xs ++ y).ReadBy [again] rest ∧
      (pieceAt ((row xs ++ y).pieces ++ rest) 0).kind.goesOn = false := by
  induction xs with
  | nil => exact ⟨hy, hg⟩
  | cons x xs ih =>
    obtain ⟨hx, hxs⟩ := List.forall_mem_cons.1 hxs
    obtain ⟨hread, hgo⟩ := ih hxs
    rw [row, append_assoc]
    exact hx _ rest hread hgo

/-- Items between braces. -/
theorem braced_readBy (h : ReadsItems item again) (hxs : ∀ x ∈ xs, Turn again x) :
    (join [mark .lBrace, row xs, mark .rBrace]).ReadBy
      [.expectThen (.mark .lBrace) again] rest := by
  have hbrace : (mark .rBrace).ReadBy [again] rest :=
    (readBy_mark .rBrace).part fun p hp => h.brace p (hp.kind_eq 0)
  exact (turns_row hxs hbrace rfl).1.then (beq_self_eq_true (Kind.mark .lBrace))

end Printed

/-! ## Members of properties and interfaces -/

namespace Decl

open Printed

variable {rest : List Piece} {v : Lookahead}

theorem opensItem_modifiers (ms : List Modifier) (h : TakesModifiers rest) :
    OpensItem ((modifiersPrinted ms).pieces ++ rest) := by
  have hword : ∀ k ∈ Keyword.all, (Kind.keyword k).isModifier = true →
      Kind.keyword k ∉ [.mark .rBrace, .mark .semi, .eof] ∧ (Kind.keyword k).goesOn = false := by
    decide
  have hrest : (pieceAt rest 0).kind ∉ [.mark .rBrace, .mark .semi, .eof] := by
    simp [h.noMark, h.notEnd]
  have hboth := modifiers_ahead (P := fun k => k ∉ [.mark .rBrace, .mark .semi, .eof] ∧
    k.goesOn = false) ms (by decide) (fun k => hword k k.mem_all) ⟨hrest, h.goesOn⟩
  exact ⟨hboth.1, hboth.2⟩

theorem readsItems_accessors : ReadsItems (.decl .accessor) (.decl .accessors) where
  more p hk := by
    simp only [List.mem_cons, List.not_mem_nil, or_false, not_or] at hk
    simp [perform, DeclPart.expand, Lookahead.atMark, hk]
    rfl
  brace p hk := by
    simp [perform, DeclPart.expand, Lookahead.atMark, hk]

theorem Accessor.turn (a : Accessor) : Turn (.decl .accessors) a.printed := by
  have hkeyword : ∀ rest, TakesModifiers (.keyword a.kind.keyword :: rest) := fun rest => by
    cases a.kind <;> exact takesModifiers_keyword rfl rfl
  refine turn_item readsItems_accessors (fun rest => ?_) fun rest hg => ?_
  · have hpieces : a.printed.pieces ++ rest = (modifiersPrinted a.modifiers).pieces ++
        ((join [keyword a.kind.keyword, bodyPrinted a.body]).pieces ++ rest) := pieces_join
    rw [hpieces]
    exact opensItem_modifiers _ (hkeyword _)
  · have hkind : (join [keyword a.kind.keyword, bodyPrinted a.body]).ReadBy
        [.decl .accessorKind] rest := by
      have hpart : (join [keyword a.kind.keyword, bodyPrinted a.body]).ReadBy
          [.take 1, .decl .accessorBody] rest :=
        .cons readBy_keyword (accessorBody_readBy a.body hg)
      refine hpart.decl fun v hv => ?_
      have hk : v.kind 0 = .keyword a.kind.keyword := hv.kind_eq 0
      cases hkind : a.kind <;> simp_all [DeclPart.expand, Lookahead.atKeyword,
        AccessorKind.keyword]
    have hpart : (join [modifiersPrinted a.modifiers, keyword a.kind.keyword,
        bodyPrinted a.body]).ReadBy [.decl .modifiers, .decl .accessorKind] rest :=
      .cons (modifiers_readBy _ (hkeyword _)) hkind
    exact hpart.node.decl fun v hv => rfl

theorem takesModifiers_result (t : Option TypeRef) :
    TakesModifiers ((resultPrinted t).pieces ++ rest) := by
  cases t with
  | none => exact takesModifiers_keyword rfl rfl
  | some t => exact t.takesModifiers

theorem untilBrace_interface (p : Parser) : p.perform (.decl .interfaceMembers) =
    (p, .ok (untilBrace p.lookahead (.decl .interfaceMethod) (.decl .interfaceMembers))) := rfl

theorem InterfaceMember.turn (m : InterfaceMember) :
    Turn (.decl .interfaceMembers) m.printed := by
  cases m with
  | stray => exact turn_stray untilBrace_interface
  | method ms t n ps =>
    refine turn_item (readsItems_untilBrace untilBrace_interface) (fun rest => ?_) fun rest _ => ?_
    · have hpieces : (InterfaceMember.method ms t n ps).printed.pieces ++ rest =
          (modifiersPrinted ms).pieces ++ ((join [resultPrinted t, .name n, parametersPrinted ps,
            mark .semi]).pieces ++ rest) := pieces_join
      rw [hpieces, pieces_join]
      exact opensItem_modifiers _ (takesModifiers_result t)
    · have hpart : (join [modifiersPrinted ms, resultPrinted t, .name n, parametersPrinted ps,
          mark .semi]).ReadBy [.decl .modifiers, .decl .resultType, .expect .identifier,
            .decl .parameters, .expect (.mark .semi)] rest := by
        refine .cons (modifiers_readBy _ ?_) (.cons (result_readBy t n)
          (.cons (readBy_name n) (.cons (parameters_readBy ps) (readBy_mark .semi))))
        rw [pieces_join]
        exact takesModifiers_result t
      exact hpart.node.decl fun v hv => rfl

/-! ## Telling members apart -/

variable {core : Printed} {ss : List Step} {ms : List Mark}

theorem avoids_arguments (xs : List Printed) (h : Avoids ms rest) (hm : .lt ∉ ms) :
    Avoids ms ((argumentsPrinted xs).pieces ++ rest) := by
  cases xs with
  | nil => exact h
  | cons x xs => exact avoids_mark hm

/-- Behind the first name of a type comes no parenthesis, so no constructor is seen. -/
theorem TypeRef.second_ne (t : TypeRef) (n : Name) :
    (pieceAt (t.printed.pieces ++ .named n.word :: rest) 1).kind ≠ .mark .lParen := by
  obtain ⟨⟨w, args⟩, more, k⟩ := t
  have hpieces : (TypeRef.mk ⟨w, args⟩ more k).printed.pieces ++ .named n.word :: rest =
      w.piece :: ((argumentsPrinted (TypeRef.eachPrinted args)).pieces ++
        ((Segment.dotted more).pieces ++
          ((bracketsPrinted k).pieces ++ .named n.word :: rest))) := by
    rw [← List.append_assoc (Segment.dotted more).pieces, ← List.append_assoc]
    exact congrArg (w.piece :: · ++ .named n.word :: rest) rfl
  rw [hpieces]
  have hbehind : Avoids [.lParen] ((argumentsPrinted (TypeRef.eachPrinted args)).pieces ++
      ((Segment.dotted more).pieces ++ ((bracketsPrinted k).pieces ++ .named n.word :: rest))) :=
    avoids_arguments _ (avoids_dotted more (avoids_brackets k (avoids_named n) (by decide))
      (by decide)) (by decide)
  exact hbehind.ne (by decide)

/-- Behind a type and a name, the next mark tells methods, properties and fields apart. -/
theorem memberSteps_typed (t : TypeRef) (n : Name)
    (hv : v.Before (t.printed.pieces ++ .named n.word :: rest)) :
    memberSteps v =
      if (pieceAt rest 0).kind = .mark .lParen then [.decl .method]
      else if (pieceAt rest 0).kind = .mark .lBrace then [.decl .property]
      else [.decl .field] := by
  have hsecond : v.kind 1 ≠ .mark .lParen := by
    rw [hv.kind_eq 1]
    exact t.second_ne n
  have hend := t.typeEnd_eq hv (avoids_named n)
  have hbehind : v.At t.printed.pieces.length (.named n.word :: rest) := by
    have h := hv.at.behind
    rwa [Nat.zero_add] at h
  have hname : v.isIdentifier t.printed.pieces.length = true := hbehind.isIdentifier_eq 0
  have hnext : v.kind (t.printed.pieces.length + 1) = (pieceAt rest 0).kind := hbehind.kind_eq 1
  have hfirst : ∃ w : TypeWord, v.kind 0 = w.piece.kind := by
    obtain ⟨⟨w, args⟩, more, k⟩ := t
    exact ⟨w, hv.kind_eq 0⟩
  obtain ⟨w, hw⟩ := hfirst
  cases w <;> simp [memberSteps, hw, TypeWord.piece, Piece.named, Piece.keyword, hsecond, hend,
    hname, hnext]

/-- Behind modifiers no braces of an initializer open. -/
theorem classMemberSteps_modifiers (ms : List Modifier) (h : TakesModifiers rest)
    (hv : v.Before ((modifiersPrinted ms).pieces ++ rest)) :
    classMemberSteps v = [.decl .modifiers, .decl .member] := by
  have hbrace : ∀ ms : List Modifier,
      (pieceAt ((modifiersPrinted ms).pieces ++ rest) 0).kind ≠ .mark .lBrace := fun ms =>
    modifiers_ahead ms (P := (· ≠ .mark .lBrace)) nofun (fun _ _ => nofun) (h.noMark _)
  have hfirst : v.kind 0 ≠ .mark .lBrace := by
    rw [hv.kind_eq 0]
    exact hbrace ms
  have hstatic : (v.atKeyword .staticKw && v.kind 1 == .mark .lBrace) = false := by
    rw [Bool.and_eq_false_iff]
    cases ms with
    | nil =>
      left
      rw [Lookahead.atKeyword, beq_eq_false_iff_ne, hv.kind_eq 0]
      intro heq
      have hk : (pieceAt rest 0).kind.isModifier = false := h.noModifier
      rw [show (pieceAt rest 0).kind = _ from heq] at hk
      cases hk
    | cons m ms =>
      cases m with
      | word w =>
        right
        rw [beq_eq_false_iff_ne, hv.kind_eq 1]
        exact hbrace ms
      | sharing s =>
        left
        have hk : v.kind 0 = .keyword s.keyword := hv.kind_eq 0
        cases s <;> simp [Lookahead.atKeyword, hk, Sharing.keyword]
      | annotated first more =>
        left
        have hk : v.kind 0 = .mark .atSign := hv.kind_eq 0
        simp [Lookahead.atKeyword, hk]
  simp [classMemberSteps, hstatic, Lookahead.atMark, hfirst]

/-! ## Members of classes -/

theorem untilBrace_class (p : Parser) : p.perform (.decl .classMembers) =
    (p, .ok (untilBrace p.lookahead (.decl .classMember) (.decl .classMembers))) := rfl

theorem readsItems_classMembers : ReadsItems (.decl .classMember) (.decl .classMembers) :=
  readsItems_untilBrace untilBrace_class

/-- A member with its modifiers, when what stands behind the modifiers is read as one. -/
theorem turn_member (ss : List Step) (ms : List Modifier) (ht : ∀ rest, TakesModifiers (core.pieces ++ rest))
    (hcore : ∀ rest, (pieceAt rest 0).kind.goesOn = false → core.ReadBy ss rest)
    (hsteps : ∀ rest, ∀ v : Lookahead, v.Before (core.pieces ++ rest) → memberSteps v = ss) :
    Turn (.decl .classMembers)
      (.node .classBodyDeclaration (join [modifiersPrinted ms, core])) := by
  refine turn_item readsItems_classMembers (fun rest => ?_) fun rest hg => ?_
  · rw [pieces_node, pieces_join]
    exact opensItem_modifiers ms (ht rest)
  · have hmember : core.ReadBy [.decl .member] rest := (hcore rest hg).decl (hsteps rest)
    have hpart : (join [modifiersPrinted ms, core]).ReadBy [.decl .modifiers, .decl .member] rest :=
      .cons (modifiers_readBy ms (ht rest)) hmember
    refine hpart.node.decl fun v hv => ?_
    rw [pieces_node, pieces_join] at hv
    rw [DeclPart.expand, classMemberSteps_modifiers ms (ht rest) hv]

theorem turn_initializer (isStatic : Bool) (b : Body) :
    Turn (.decl .classMembers) (Member.initializer isStatic b).printed := by
  cases isStatic with
  | true =>
    have hahead : ∀ rest, (pieceAt ((Member.initializer true b).printed.pieces ++ rest) 0).kind =
        .keyword .staticKw := fun rest => rfl
    refine turn_item readsItems_classMembers (fun rest => ⟨?_, rfl⟩) fun rest hg => ?_
    · rw [hahead]
      decide
    · have hpart : (join [keyword .staticKw, b.printed]).ReadBy [.take 1, .stmt .block] rest :=
        .cons readBy_keyword (b.readBy hg)
      refine hpart.node.decl fun v hv => ?_
      have hk : v.kind 0 = .keyword .staticKw := hv.kind_eq 0
      have hk' : v.kind 1 = .mark .lBrace := (hv.kind_eq 1).trans b.ahead
      simp [DeclPart.expand, classMemberSteps, Lookahead.atKeyword, hk, hk']
  | false =>
    have hahead : ∀ rest, (pieceAt ((Member.initializer false b).printed.pieces ++ rest) 0).kind =
        .mark .lBrace := fun rest => b.ahead
    refine turn_item readsItems_classMembers (fun rest => ⟨?_, ?_⟩) fun rest hg => ?_
    · rw [hahead]
      decide
    · rw [hahead]
      rfl
    · refine (b.readBy hg).node.decl fun v hv => ?_
      have hk : v.kind 0 = .mark .lBrace := (hv.kind_eq 0).trans b.ahead
      simp [DeclPart.expand, classMemberSteps, Lookahead.atKeyword, Lookahead.atMark, hk]

theorem turn_field (ms : List Modifier) (t : TypeRef) (d : Declarator) (ds : List Declarator) :
    Turn (.decl .classMembers) (Member.field ms t d ds).printed := by
  obtain ⟨n, i⟩ := d
  have hbehind : ∀ rest : List Piece, Avoids [.lParen, .lBrace] ((initialPrinted i).pieces ++
      ((commas (ds.map Declarator.printed)).pieces ++ .mark .semi :: rest)) := by
    intro rest
    cases i with
    | some i => exact avoids_mark (by decide)
    | none =>
      cases ds with
      | nil => exact avoids_mark (by decide)
      | cons d ds => exact avoids_mark (by decide)
  have hpieces : ∀ rest : List Piece, (join [t.printed,
      list (Declarator.mk n i).printed (ds.map Declarator.printed), mark .semi]).pieces ++ rest =
        t.printed.pieces ++ .named n.word :: ((initialPrinted i).pieces ++
          ((commas (ds.map Declarator.printed)).pieces ++ .mark .semi :: rest)) := by
    intro rest
    rw [pieces_join, pieces_join, list, pieces_join]
    rfl
  refine turn_member [.decl .field] ms (fun rest => ?_) (fun rest _ => ?_)
    fun rest v hv => ?_
  · rw [pieces_node, hpieces]
    exact t.takesModifiers
  · have hpart : (join [t.printed, list (Declarator.mk n i).printed (ds.map Declarator.printed),
        mark .semi]).ReadBy [.typ .type, .decl .variables, .expect (.mark .semi)] rest :=
      .cons (t.readBy _ (avoids_named n)) (.cons (variables_readBy _ _) (readBy_mark .semi))
    exact hpart.node.decl fun v hv => rfl
  · rw [pieces_node, hpieces] at hv
    have hparen := (hbehind rest).ne (m := .lParen) (by decide)
    have hbrace := (hbehind rest).ne (m := .lBrace) (by decide)
    rw [memberSteps_typed t n hv, if_neg hparen, if_neg hbrace]

theorem turn_method (ms : List Modifier) (t : Option TypeRef) (n : Name) (ps : List Parameter)
    (b : Option Body) : Turn (.decl .classMembers) (Member.method ms t n ps b).printed := by
  have hpieces : ∀ rest : List Piece, (join [resultPrinted t, .name n, parametersPrinted ps,
      bodyPrinted b]).pieces ++ rest = (resultPrinted t).pieces ++ .named n.word ::
        ((parametersPrinted ps).pieces ++ ((bodyPrinted b).pieces ++ rest)) := by
    intro rest
    rw [pieces_join, pieces_join, pieces_join]
    rfl
  refine turn_member [.decl .method] ms (fun rest => ?_) (fun rest hg => ?_)
    fun rest v hv => ?_
  · rw [pieces_node, hpieces]
    exact takesModifiers_result t
  · have hpart : (join [resultPrinted t, .name n, parametersPrinted ps, bodyPrinted b]).ReadBy
        [.decl .resultType, .expect .identifier, .decl .parameters, .decl .methodBody] rest :=
      .cons (result_readBy t n) (.cons (readBy_name n)
        (.cons (parameters_readBy ps) (body_readBy b hg)))
    exact hpart.node.decl fun v hv => rfl
  · rw [pieces_node, hpieces] at hv
    cases t with
    | none =>
      have hk : v.kind 0 = .keyword .voidKw := hv.kind_eq 0
      simp [memberSteps, hk]
    | some t => exact memberSteps_typed t n hv

theorem turn_creator (ms : List Modifier) (n : Name) (ps : List Parameter) (b : Body) :
    Turn (.decl .classMembers) (Member.creator ms n ps b).printed := by
  refine turn_member constructorSteps ms (fun rest => takesModifiers_named n)
    (fun rest hg => ?_) fun rest v hv => ?_
  · have hpart : (join [.name n, parametersPrinted ps, b.printed]).ReadBy
        [.take 1, .decl .parameters, .stmt .block] rest :=
      .cons readBy_take (.cons (parameters_readBy ps) (b.readBy hg))
    exact hpart.node
  · have hk : v.kind 0 = .identifier := hv.kind_eq 0
    have hi : v.isIdentifier 0 = true := hv.isIdentifier_eq 0
    have hk' : v.kind 1 = .mark .lParen := hv.kind_eq 1
    simp [memberSteps, hk, hi, hk']

theorem turn_property (ms : List Modifier) (t : TypeRef) (n : Name) (as : List Accessor) :
    Turn (.decl .classMembers) (Member.property ms t n as).printed := by
  have hpieces : ∀ rest : List Piece, (join [t.printed, .name n, mark .lBrace,
      row (as.map Accessor.printed), mark .rBrace]).pieces ++ rest = t.printed.pieces ++
        .named n.word :: .mark .lBrace :: ((row (as.map Accessor.printed)).pieces ++
          .mark .rBrace :: rest) := by
    intro rest
    rw [pieces_join, pieces_join, pieces_join, pieces_join]
    rfl
  refine turn_member [.decl .property] ms (fun rest => ?_) (fun rest _ => ?_)
    fun rest v hv => ?_
  · rw [pieces_node, hpieces]
    exact t.takesModifiers
  · have haccessors : (join [mark .lBrace, row (as.map Accessor.printed), mark .rBrace]).ReadBy
        [.expectThen (.mark .lBrace) (.decl .accessors)] rest :=
      braced_readBy readsItems_accessors (List.forall_mem_map.2 fun a _ => a.turn)
    have hpart : (join [t.printed, .name n, mark .lBrace, row (as.map Accessor.printed),
        mark .rBrace]).ReadBy [.typ .type, .expect .identifier,
          .expectThen (.mark .lBrace) (.decl .accessors)] rest :=
      .cons (t.readBy _ (avoids_named n)) (.cons (readBy_name n) haccessors)
    exact hpart.node.decl fun v hv => rfl
  · rw [pieces_node, hpieces] at hv
    exact memberSteps_typed t n hv

/-! ## Types with members -/

/-- A type declaration is read by the steps that its keyword calls for, at the top and
among members. -/
def TypeDecl.Readable (d : TypeDecl) : Prop :=
  ∃ ss, ∀ rest, TakesModifiers (d.printed.pieces ++ rest) ∧ d.printed.ReadBy ss rest ∧
    ∀ v : Lookahead, v.Before (d.printed.pieces ++ rest) →
      memberSteps v = ss ∧ DeclPart.declaredType.expand v = ss

theorem turn_nested (ms : List Modifier) {d : TypeDecl} (h : d.Readable) :
    Turn (.decl .classMembers) (Member.nested ms d).printed := by
  obtain ⟨ss, h⟩ := h
  exact turn_member ss ms (fun rest => (h rest).1) (fun rest _ => (h rest).2.1)
    fun rest v hv => ((h rest).2.2 v hv).1

theorem readable_class (n : Name) (base : Option TypeRef) (interfaces : List TypeRef)
    {ms : List Member} (h : ∀ x ∈ Member.eachPrinted ms, Turn (.decl .classMembers) x) :
    (TypeDecl.ofClass n base interfaces ms).Readable := by
  refine ⟨classSteps, fun rest => ⟨takesModifiers_keyword rfl rfl, ?_, fun v hv => ?_⟩⟩
  · have hbody : (bracedPrinted .classBody (Member.eachPrinted ms)).ReadBy
        [.decl .classBody] rest :=
      (braced_readBy readsItems_classMembers h).node.decl fun v hv => rfl
    have hinterfaces : (join [typesPrinted .implementsKw interfaces,
        bracedPrinted .classBody (Member.eachPrinted ms)]).ReadBy
          [.decl .interfaces, .decl .classBody] rest :=
      .cons (typesPrinted_readBy interfaces (fun _ => rfl) (avoids_mark (by decide)) nofun) hbody
    have hbehind : Avoids typeMarks ((join [typesPrinted .implementsKw interfaces,
        bracedPrinted .classBody (Member.eachPrinted ms)]).pieces ++ rest) ∧
        (pieceAt ((join [typesPrinted .implementsKw interfaces,
          bracedPrinted .classBody (Member.eachPrinted ms)]).pieces ++ rest) 0).kind ≠
            .keyword .extendsKw := by
      cases interfaces with
      | nil => exact ⟨avoids_mark (by decide), nofun⟩
      | cons t ts => exact ⟨fun _ _ => nofun, nofun⟩
    have hpart : (join [keyword .classKw, .name n, typesPrinted .extendsKw base.toList,
        typesPrinted .implementsKw interfaces,
        bracedPrinted .classBody (Member.eachPrinted ms)]).ReadBy
          [.take 1, .expect .identifier, .decl .superclass, .decl .interfaces, .decl .classBody]
          rest :=
      .cons readBy_keyword (.cons (readBy_name n)
        (.cons (superclass_readBy base hbehind.1 hbehind.2) hinterfaces))
    exact hpart.node
  · have hk : v.kind 0 = .keyword .classKw := hv.kind_eq 0
    simp [memberSteps, DeclPart.expand, hk]

theorem readable_interface (n : Name) (bases : List TypeRef) (ms : List InterfaceMember) :
    (TypeDecl.ofInterface n bases ms).Readable := by
  refine ⟨interfaceSteps, fun rest => ⟨takesModifiers_keyword rfl rfl, ?_, fun v hv => ?_⟩⟩
  · have hturns : ∀ x ∈ ms.map InterfaceMember.printed, Turn (.decl .interfaceMembers) x :=
      List.forall_mem_map.2 fun m _ => m.turn
    have hbody : (bracedPrinted .interfaceBody (ms.map InterfaceMember.printed)).ReadBy
        [.start .interfaceBody, .expectThen (.mark .lBrace) (.decl .interfaceMembers), .finish]
        rest :=
      (braced_readBy (readsItems_untilBrace untilBrace_interface) hturns).node
    have hpart : (join [keyword .interfaceKw, .name n, typesPrinted .extendsKw bases,
        bracedPrinted .interfaceBody (ms.map InterfaceMember.printed)]).ReadBy
          [.take 1, .expect .identifier, .decl .superinterfaces, .start .interfaceBody,
            .expectThen (.mark .lBrace) (.decl .interfaceMembers), .finish] rest :=
      .cons readBy_keyword (.cons (readBy_name n)
        (.cons (typesPrinted_readBy bases (fun _ => rfl) (avoids_mark (by decide)) nofun) hbody))
    exact hpart.node
  · have hk : v.kind 0 = .keyword .interfaceKw := hv.kind_eq 0
    simp [memberSteps, DeclPart.expand, hk]

theorem readable_enum (n : Name) (constants : List Name) :
    (TypeDecl.ofEnum n constants).Readable := by
  refine ⟨enumSteps, fun rest => ⟨takesModifiers_keyword rfl rfl, ?_, fun v hv => ?_⟩⟩
  · have hbody : (join [mark .lBrace, constantsPrinted constants, mark .rBrace]).ReadBy
        [.expectThen (.mark .lBrace) (.decl .enumConstants)] rest :=
      (constants_readBy constants).then (beq_self_eq_true (Kind.mark .lBrace))
    have hpart : (join [keyword .enumKw, .name n, mark .lBrace, constantsPrinted constants,
        mark .rBrace]).ReadBy [.take 1, .expect .identifier,
          .expectThen (.mark .lBrace) (.decl .enumConstants)] rest :=
      .cons readBy_keyword (.cons (readBy_name n) hbody)
    exact hpart.node
  · have hk : v.kind 0 = .keyword .enumKw := hv.kind_eq 0
    simp [memberSteps, DeclPart.expand, hk]

mutual

theorem Member.turn : ∀ m : Member, Turn (.decl .classMembers) m.printed
  | .stray => turn_stray untilBrace_class
  | .initializer isStatic b => turn_initializer isStatic b
  | .field ms t d ds => turn_field ms t d ds
  | .method ms t n ps b => turn_method ms t n ps b
  | .creator ms n ps b => turn_creator ms n ps b
  | .property ms t n as => turn_property ms t n as
  | .nested ms d => turn_nested ms d.readable

theorem Member.turns : ∀ ms : List Member,
    ∀ x ∈ Member.eachPrinted ms, Turn (.decl .classMembers) x
  | [] => fun _ h => absurd h List.not_mem_nil
  | m :: ms => List.forall_mem_cons.2 ⟨m.turn, Member.turns ms⟩

theorem TypeDecl.readable : ∀ d : TypeDecl, d.Readable
  | .ofClass n base interfaces ms => readable_class n base interfaces (Member.turns ms)
  | .ofInterface n bases ms => readable_interface n bases ms
  | .ofEnum n constants => readable_enum n constants

end

/-! ## Units -/

/-- The end of the text is read as the last token of a unit. -/
theorem matches_endOfText : Matches [.endOfText] [] [.token .eof ""] [] := by
  intro p hp
  have hend : p.current.isEof = true := beq_iff_eq.2 hp
  have hlook : p.take.lookahead = p.lookahead := by
    rw [lookahead, stream_take, position_take, behind, if_pos hend, lookahead]
  have hk : p.current.kind = .eof := hp
  have hbefore : p.lookahead.Before [] := hp
  have hw : p.current.word = "" := hbefore.word_eq 0
  refine ⟨p.take, runs_one (by rw [perform, if_pos hend]), ⟨?_, ⟨[.token p.current], rfl, ?_⟩,
    rfl, rfl, rfl, fun _ => rfl⟩⟩
  · rw [hlook]
    exact hp
  · rw [Tree.outlines, Tree.outlines, Tree.outline, hk, hw]

theorem Declaration.matches (d : Declaration) :
    Matches [.decl .compilationUnit] d.pieces [d.outline] [] := by
  obtain ⟨ms, t⟩ := d
  obtain ⟨ss, h⟩ := t.readable
  obtain ⟨ht, hread, hsteps⟩ := h []
  have htype : t.printed.ReadBy [.decl .declaredType] [] :=
    hread.decl fun v hv => (hsteps v hv).2
  have hpart : (join [modifiersPrinted ms, t.printed]).ReadBy
      [.decl .modifiers, .decl .declaredType] [] := .cons (modifiers_readBy ms ht) htype
  have hdeclaration : (Declaration.mk ms t).printed.ReadBy [.decl .declaration] [] :=
    hpart.node.decl fun v hv => rfl
  have hend : ReadBy ⟨[], [.token .eof ""]⟩ [.endOfText] [] := matches_endOfText
  have hunit : Matches [.decl .compilationUnit] ((Declaration.mk ms t).pieces ++ [])
      [(Declaration.mk ms t).outline] [] := (hdeclaration.append hend).node.decl fun v hv => rfl
  rwa [List.append_nil] at hunit

theorem Declaration.pieces_ne_nil (d : Declaration) : d.pieces ≠ [] := by
  obtain ⟨ms, t⟩ := d
  obtain ⟨ss, h⟩ := t.readable
  have hkind := (opensItem_modifiers ms (h []).1).kind
  intro hnil
  have hpieces : (modifiersPrinted ms).pieces ++ t.printed.pieces = [] := hnil
  rw [← List.append_assoc, hpieces] at hkind
  exact hkind (by decide)

end Decl

/-- Printed declarations are read back: a call reads the tokens of a unit up to the end
of the text, reports nothing, and returns the tree of the declaration. -/
theorem Parser.declaration_readsBack (d : Decl.Declaration) (p : Parser)
    (hp : p.lookahead.Before d.pieces) : p.ReadsBack .compilationUnit d.outline :=
  readsBack_of_matches d.matches d.pieces_ne_nil hp

namespace Decl

/-- A type that is one name. -/
def TypeRef.named (n : Name) : TypeRef := ⟨⟨.named n, []⟩, [], 0⟩

/-- A class with members of all forms, and the same body wherever there is one. -/
def Declaration.outer (b : Body) : Declaration where
  modifiers := [.annotated ⟨"test", by decide⟩ [], .sharing .inherited]
  type := .ofClass ⟨"ledger", by decide⟩
    (some ⟨⟨.named ⟨"core", by decide⟩, []⟩,
      [⟨.named ⟨"record", by decide⟩, [.named ⟨"item", by decide⟩]⟩], 0⟩)
    [⟨⟨.named ⟨"e", by decide⟩, [⟨⟨.map, [.named ⟨"item", by decide⟩,
      ⟨⟨.named ⟨"item", by decide⟩, []⟩, [], 1⟩]⟩, [], 0⟩]⟩, [], 0⟩]
    [.stray, .initializer true b,
      .field [.word ⟨.finalKw, rfl, by decide⟩] ⟨⟨.list, [.named ⟨"item", by decide⟩]⟩, [], 1⟩
        ⟨⟨"u", by decide⟩, none⟩
        [⟨⟨"v", by decide⟩, some (.literal ⟨.keyword .nullKw, "null", rfl⟩)⟩],
      .creator [] ⟨"ledger", by decide⟩ [⟨[], .named ⟨"item", by decide⟩, ⟨"entry", by decide⟩⟩] b,
      .method [] (some (.named ⟨"item", by decide⟩)) ⟨"m", by decide⟩ [] none,
      .property [] (.named ⟨"item", by decide⟩) ⟨"total", by decide⟩
        [⟨[], .get, none⟩, ⟨[], .set, some b⟩],
      .nested [] (.ofInterface ⟨"i", by decide⟩ [] [.method [] none ⟨"size", by decide⟩ []]),
      .nested [.word ⟨.publicKw, rfl, by decide⟩]
        (.ofEnum ⟨"j", by decide⟩ [⟨"k", by decide⟩, ⟨"l", by decide⟩])]

def Declaration.bodyText : String := "\x7b a = b >> c; \x7d"

def Declaration.outerText : String :=
  "@Test inherited sharing class Ledger extends Core.Record<Item> " ++
    "implements E<Map<Item, Item[]>> \x7b;\n" ++
    "static \x7b a = b >> c; \x7d final List<Item>[] u, v = null;\n" ++
    "Ledger(Item entry) \x7b a = b >> c; \x7d Item m();\n" ++
    "Item total \x7b get; set \x7b a = b >> c; \x7d \x7d\n" ++
    "interface I \x7b void size(); \x7d public enum J \x7b K, L \x7d \x7d"

end Decl

theorem Parser.declaration_readsBack_outer :
    ∃ t b s, TokenStream.ofString .folded Decl.Declaration.bodyText = .ok t ∧
      Body.ofStream? t = some b ∧
      TokenStream.ofString .folded Decl.Declaration.outerText = .ok s ∧
      (ofStream s).lookahead.Before (Decl.Declaration.outer b).pieces ∧
      (ofStream s).ReadsBack .compilationUnit (Decl.Declaration.outer b).outline := by
  obtain ⟨t, ht⟩ := TokenStream.ofString_ok .folded Decl.Declaration.bodyText
  obtain ⟨s, hs⟩ := TokenStream.ofString_ok .folded Decl.Declaration.outerText
  have hbefore : (TokenStream.ofString .folded Decl.Declaration.bodyText).toOption.bind (fun t =>
      (TokenStream.ofString .folded Decl.Declaration.outerText).toOption.map fun s =>
        (Body.ofStream? t).any fun b =>
          decide ((ofStream s).lookahead.Before (Decl.Declaration.outer b).pieces)) =
            some true := by
    rw [TokenStream.ofString_eq_ofChars, TokenStream.ofString_eq_ofChars]
    delta Decl.Declaration.bodyText Decl.Declaration.outerText
    simp only [String.toList_append, -String.reduceToList]
    repeat rw [String.toList_ofList]
    decide +kernel
  rw [ht, hs] at hbefore
  obtain ⟨b, hb, hp⟩ := (Option.any_eq_true ..).1 (Option.some.inj hbefore)
  have hp := of_decide_eq_true hp
  exact ⟨t, b, s, ht, hb, hs, hp, declaration_readsBack (.outer b) (ofStream s) hp⟩

end ApexSyntax
