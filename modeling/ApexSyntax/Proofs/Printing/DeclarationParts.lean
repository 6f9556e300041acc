-- The parts of declarations that hold no members are read back: types, modifiers, variables,
-- parameters. A type is also scanned to its end, which is how members are told apart.
import ApexSyntax.Proofs.Layout.Alike
import ApexSyntax.Proofs.Lookahead.TypePhrases
import ApexSyntax.Proofs.Printing.Declarations
import ApexSyntax.Proofs.Printing.ExpressionRoundTrip
import ApexSyntax.Proofs.Printing.QueryParts

namespace ApexSyntax

open ApexSyntax.Parser

namespace Printed

variable {x y : Printed} {xs : List Printed} {ss : List Step} {s : Step} {rest : List Piece}
  {e : Expected} {a : Piece} {k : Keyword}

theorem ReadBy.typ {part : TypePart} (h : x.ReadBy ss rest)
    (hs : ∀ v : Lookahead, v.Before (x.pieces ++ rest) → part.expand v = ss) :
    x.ReadBy [.typ part] rest := h.part fun p hp => by rw [perform, hs _ hp]

theorem ReadBy.decl {part : DeclPart} (h : x.ReadBy ss rest)
    (hs : ∀ v : Lookahead, v.Before (x.pieces ++ rest) → part.expand v = ss) :
    x.ReadBy [.decl part] rest := h.part fun p hp => by rw [perform, hs _ hp]

theorem readBy_name (n : Name) : (name n).ReadBy [.expect .identifier] rest := readBy_expect rfl

theorem readBy_keyword : (keyword k).ReadBy [.take 1] rest := readBy_take

end Printed

/-! ## What stands some places ahead -/

namespace Lookahead

/-- From `n` places ahead on stand the pieces. -/
def At (v : Lookahead) (n : Nat) (ps : List Piece) : Prop := Before ⟨v.stream, v.position + n⟩ ps

variable {v : Lookahead} {n : Nat} {a : Piece} {ps qs : List Piece}

theorem Before.at (h : v.Before ps) : v.At 0 ps := h

namespace At

theorem kind_eq (h : v.At n ps) (i : Nat) : v.kind (n + i) = (pieceAt ps i).kind := by
  have hk := Before.kind_eq h i
  rwa [kind, nth, Nat.add_assoc] at hk

theorem isTypeName_eq (h : v.At n ps) (i : Nat) :
    v.isTypeName (n + i) = (pieceAt ps i).isTypeName := by
  have hk := Before.isTypeName_eq h i
  rwa [isTypeName, nth, Nat.add_assoc] at hk

theorem isIdentifier_eq (h : v.At n ps) (i : Nat) :
    v.isIdentifier (n + i) = (pieceAt ps i).isIdentifier := by
  have hk := Before.isIdentifier_eq h i
  rwa [isIdentifier, nth, Nat.add_assoc] at hk

theorem behind (h : v.At n (ps ++ qs)) : v.At (n + ps.length) qs := by
  have hd := Before.drop h (n := ps.length) (by simp)
  rwa [List.drop_left, Nat.add_assoc] at hd

theorem next (h : v.At n (a :: ps)) : v.At (n + 1) ps := by
  have hone : v.At n ([a] ++ ps) := h
  exact hone.behind

end At

end Lookahead

/-- None of the marks comes next. -/
def Avoids (ms : List Mark) (rest : List Piece) : Prop :=
  ∀ m ∈ ms, (pieceAt rest 0).kind ≠ .mark m

section Avoids

variable {ms ns : List Mark} {m : Mark} {rest ps : List Piece} {a : Piece}

theorem avoids_mark (h : m ∉ ms) : Avoids ms (.mark m :: rest) := by
  intro n hn heq
  obtain rfl : m = n := Kind.mark.inj heq
  exact h hn

theorem avoids_named (n : Name) : Avoids ms (.named n.word :: rest) := fun _ _ => nofun

theorem Avoids.mono (h : Avoids ms rest) (hn : ns ⊆ ms) : Avoids ns rest :=
  fun m hm => h m (hn hm)

theorem Avoids.ne (h : Avoids ms rest) (hm : m ∈ ms) : (pieceAt rest 0).kind ≠ .mark m := h m hm

theorem Avoids.kind_ne_at {v : Lookahead} {n : Nat} (h : Avoids ms rest) (hv : v.At n rest)
    (hm : m ∈ ms) : v.kind n ≠ .mark m := by
  rw [← Nat.add_zero n, hv.kind_eq 0]
  exact h m hm

theorem Avoids.kind_ne {v : Lookahead} (h : Avoids ms rest) (hv : v.Before rest) (hm : m ∈ ms) :
    v.kind 0 ≠ .mark m := h.kind_ne_at hv.at hm

end Avoids

/-! ## Types -/

namespace Decl

open Printed

/-- Induction over types, with the arguments and the dotted names one by one. -/
theorem TypeRef.induction {motive : TypeRef → Prop} {S : Segment → Prop}
    (type : ∀ first more n, S first → (∀ s ∈ more, S s) → motive ⟨first, more, n⟩)
    (name : ∀ w args, (∀ t ∈ args, motive t) → S ⟨w, args⟩) (t : TypeRef) : motive t :=
  @TypeRef.rec motive S (fun ss => ∀ s ∈ ss, S s) (fun ts => ∀ t ∈ ts, motive t)
    type name (fun _ h => absurd h List.not_mem_nil)
    (fun _ _ h hs => List.forall_mem_cons.2 ⟨h, hs⟩) (fun _ h => absurd h List.not_mem_nil)
    (fun _ _ h hs => List.forall_mem_cons.2 ⟨h, hs⟩) t

theorem TypeRef.eachPrinted_eq (ts : List TypeRef) :
    TypeRef.eachPrinted ts = ts.map TypeRef.printed := by
  induction ts with
  | nil => rfl
  | cons t ts ih => rw [TypeRef.eachPrinted, ih, List.map_cons]

theorem TypeWord.isTypeName (w : TypeWord) : w.piece.token.isTypeName = true := by
  cases w <;> rfl

/-- What would go on with a type. -/
def typeMarks : List Mark := [.lt, .dot, .lBrack]

variable {rest : List Piece} {ms : List Mark} {ts : List TypeRef}

theorem avoids_brackets (n : Nat) (h : Avoids ms rest) (hm : .lBrack ∉ ms) :
    Avoids ms ((bracketsPrinted n).pieces ++ rest) := by
  cases n with
  | zero => exact h
  | succ n => exact avoids_mark hm

theorem avoids_dotted (ss : List Segment) (h : Avoids ms rest) (hm : .dot ∉ ms) :
    Avoids ms ((Segment.dotted ss).pieces ++ rest) := by
  cases ss with
  | nil => exact h
  | cons s ss => exact avoids_mark hm

/-! ### Reading types -/

theorem brackets_readBy (n : Nat) (h : Avoids [.lBrack] rest) :
    (bracketsPrinted n).ReadBy [.typ .dimensions] rest := by
  induction n with
  | zero =>
    refine readBy_nothing.typ fun v hv => ?_
    have hk : v.kind 0 ≠ .mark .lBrack := h.kind_ne hv (by decide)
    simp [TypePart.expand, Lookahead.atMark, hk]
  | succ n ih =>
    refine (readBy_takeTwo.append ih).typ fun v hv => ?_
    have hk : v.kind 0 = .mark .lBrack := hv.kind_eq 0
    have hk' : v.kind 1 = .mark .rBrack := hv.kind_eq 1
    simp [TypePart.expand, Lookahead.atMark, hk, hk']

/-- Types with commas between them, when each is read by itself. -/
theorem types_readBy {t : TypeRef}
    (h : ∀ u ∈ t :: ts, ∀ rest, Avoids typeMarks rest → u.printed.ReadBy [.typ .type] rest)
    (hrest : Avoids (.comma :: typeMarks) rest) :
    (list t.printed (ts.map TypeRef.printed)).ReadBy [.typ .list] rest := by
  have hlist : (list t.printed (ts.map TypeRef.printed)).ReadBy
      [.typ .type, .typ .moreTypes] rest :=
    list_readBy (fun _ => rfl) (fun _ => avoids_mark (by decide)) h (hrest.mono (by decide))
      (hrest.ne (by decide))
  exact hlist.typ fun v hv => rfl

theorem arguments_readBy
    (h : ∀ t ∈ ts, ∀ rest, Avoids typeMarks rest → t.printed.ReadBy [.typ .type] rest)
    (hrest : Avoids [.lt] rest) :
    (argumentsPrinted (TypeRef.eachPrinted ts)).ReadBy [.typ .arguments] rest := by
  cases ts with
  | nil =>
    refine readBy_nothing.typ fun v hv => ?_
    have hk : v.kind 0 ≠ .mark .lt := hrest.kind_ne hv (by decide)
    simp [TypePart.expand, Lookahead.atMark, hk]
  | cons t ts =>
    have hpart : (join [mark .lt, list t.printed (ts.map TypeRef.printed), mark .gt]).ReadBy
        [.take 1, .typ .list, .expect (.mark .gt)] rest :=
      .cons readBy_take (.cons (types_readBy h (avoids_mark (by decide))) (readBy_mark .gt))
    rw [TypeRef.eachPrinted, TypeRef.eachPrinted_eq, argumentsPrinted]
    refine hpart.node.typ fun v hv => ?_
    have hk : v.kind 0 = .mark .lt := hv.kind_eq 0
    simp [TypePart.expand, Lookahead.atMark, hk]

theorem dotted_readBy {ss : List Segment}
    (h : ∀ s ∈ ss, ∀ rest, Avoids [.lt] rest → s.printed.ReadBy [.typ .name] rest)
    (hrest : Avoids [.lt, .dot] rest) :
    (Segment.dotted ss).ReadBy [.typ .dottedNames] rest := by
  induction ss with
  | nil =>
    refine readBy_nothing.typ fun v hv => ?_
    have hk : v.kind 0 ≠ .mark .dot := hrest.kind_ne hv (by decide)
    simp [TypePart.expand, Lookahead.atMark, hk]
  | cons s ss ih =>
    obtain ⟨hs, hss⟩ := List.forall_mem_cons.1 h
    have hbehind : Avoids [.lt] ((Segment.dotted ss).pieces ++ rest) :=
      avoids_dotted ss (hrest.mono (by decide)) (by decide)
    have hpart : (join [mark .dot, s.printed, Segment.dotted ss]).ReadBy
        [.take 1, .typ .name, .typ .dottedNames] rest :=
      .cons readBy_take (.cons (hs _ hbehind) (ih hss))
    refine hpart.typ fun v hv => ?_
    have hk : v.kind 0 = .mark .dot := hv.kind_eq 0
    have hname : v.isTypeName 1 = true := by
      obtain ⟨w, args⟩ := s
      exact (hv.isTypeName_eq 1).trans w.isTypeName
    simp [TypePart.expand, Lookahead.atMark, hk, hname]

/-- A type is read wherever nothing comes next that goes on with it. -/
theorem TypeRef.readBy (t : TypeRef) :
    ∀ rest, Avoids typeMarks rest → t.printed.ReadBy [.typ .type] rest := by
  induction t using TypeRef.induction
    (S := fun s => ∀ rest, Avoids [.lt] rest → s.printed.ReadBy [.typ .name] rest) with
  | type first more n hfirst hmore =>
    intro rest h
    have hbrackets : Avoids [.lt, .dot] ((bracketsPrinted n).pieces ++ rest) :=
      avoids_brackets n (h.mono (by decide)) (by decide)
    have hdotted : Avoids [.lt] ((Segment.dotted more).pieces ++
        ((bracketsPrinted n).pieces ++ rest)) :=
      avoids_dotted more (hbrackets.mono (by decide)) (by decide)
    have hpart : (join [first.printed, Segment.dotted more, bracketsPrinted n]).ReadBy
        [.typ .name, .typ .dottedNames, .typ .dimensions] rest := by
      refine .cons (hfirst _ ?_) (.cons (dotted_readBy hmore hbrackets)
        (brackets_readBy n (h.mono (by decide))))
      rw [← List.append_assoc] at hdotted
      exact hdotted
    exact hpart.node.typ fun v hv => rfl
  | name w args hargs rest h =>
    have hpart : (join [flat [w.piece], argumentsPrinted (TypeRef.eachPrinted args)]).ReadBy
        [.take 1, .typ .arguments] rest := .cons readBy_take (arguments_readBy hargs h)
    refine hpart.typ fun v hv => ?_
    have hname : v.isTypeName 0 = true := (hv.isTypeName_eq 0).trans w.isTypeName
    simp [TypePart.expand, hname]

/-! ### Scanning types -/

variable {v : Lookahead} {i n : Nat}

theorem spans_brackets (k : Nat) (h : v.At n ((bracketsPrinted k).pieces ++ rest)) :
    v.Spans .brackets n (n + (bracketsPrinted k).pieces.length) := by
  induction k generalizing n with
  | zero => exact .noBracket
  | succ k ih =>
    have hlen : (bracketsPrinted (k + 1)).pieces.length =
        (bracketsPrinted k).pieces.length + 2 := rfl
    rw [hlen, Nat.add_comm _ 2, ← Nat.add_assoc]
    exact .bracket (h.kind_eq 0) (h.kind_eq 1) (ih h.next.next)

/-- A type stands wherever its pieces do. -/
def TypeRef.Spanned (v : Lookahead) (t : TypeRef) : Prop :=
  ∀ n rest, v.At n (t.printed.pieces ++ rest) → v.Spans .type n (n + t.printed.pieces.length)

/-- A name with its arguments stands wherever its pieces do. -/
def Segment.Spanned (v : Lookahead) (s : Segment) : Prop :=
  ∀ n rest, v.At n (s.printed.pieces ++ rest) → v.Spans .name n (n + s.printed.pieces.length)

/-- Types stand behind the first one, each with a comma in front of it. -/
theorem spans_commas (hfirst : v.Spans .type i n) (hts : ∀ t ∈ ts, TypeRef.Spanned v t)
    (h : v.At n ((commas (ts.map TypeRef.printed)).pieces ++ rest)) :
    v.Spans .list i (n + (commas (ts.map TypeRef.printed)).pieces.length) := by
  induction ts generalizing i n with
  | nil => exact .one hfirst
  | cons t ts ih =>
    obtain ⟨ht, hts⟩ := List.forall_mem_cons.1 hts
    have harg : v.At (n + 1) (t.printed.pieces ++
        ((commas (ts.map TypeRef.printed)).pieces ++ rest)) := by
      rw [← List.append_assoc]
      exact h.next
    have hlen : (commas ((t :: ts).map TypeRef.printed)).pieces.length =
        1 + t.printed.pieces.length + (commas (ts.map TypeRef.printed)).pieces.length := by
      rw [Nat.add_assoc, Nat.add_comm 1, ← List.length_append]
      rfl
    rw [hlen, ← Nat.add_assoc, ← Nat.add_assoc]
    exact .comma hfirst (h.kind_eq 0) (ih (ht _ _ harg) hts harg.behind)

theorem pieces_arguments (x : Printed) (xs : List Printed) :
    (argumentsPrinted (x :: xs)).pieces =
      .mark .lt :: (x.pieces ++ ((commas xs).pieces ++ [Piece.mark .gt])) :=
  List.cons_eq_cons.2 ⟨rfl, List.append_assoc ..⟩

theorem spans_segment (w : TypeWord) (hts : ∀ t ∈ ts, TypeRef.Spanned v t) :
    (Segment.mk w ts).Spanned v := by
  intro n rest h
  have hname : v.isTypeName n = true := (h.isTypeName_eq 0).trans w.isTypeName
  have hpieces : (Segment.mk w ts).printed.pieces =
      w.piece :: (argumentsPrinted (ts.map TypeRef.printed)).pieces := by
    rw [Segment.printed, TypeRef.eachPrinted_eq]
    rfl
  rw [hpieces] at h ⊢
  cases ts with
  | nil => exact .plain hname
  | cons t ts =>
    obtain ⟨ht, hts⟩ := List.forall_mem_cons.1 hts
    rw [List.map_cons, pieces_arguments] at h ⊢
    have harg : v.At (n + 2) (t.printed.pieces ++
        ((commas (ts.map TypeRef.printed)).pieces ++ .mark .gt :: rest)) := by
      simpa using h.next.next
    have hlen : (w.piece :: .mark .lt :: (t.printed.pieces ++
        ((commas (ts.map TypeRef.printed)).pieces ++ [Piece.mark .gt]))).length =
        2 + t.printed.pieces.length + (commas (ts.map TypeRef.printed)).pieces.length + 1 := by
      simp only [List.length_cons, List.length_append, List.length_nil]
      omega
    rw [hlen, ← Nat.add_assoc, ← Nat.add_assoc, ← Nat.add_assoc]
    exact .generic hname (h.kind_eq 1) (spans_commas (ht _ _ harg) hts harg.behind)
      (harg.behind.behind.kind_eq 0)

theorem spans_dotted {ss : List Segment} (hss : ∀ s ∈ ss, Segment.Spanned v s)
    (h : v.At n ((Segment.dotted ss).pieces ++ rest)) :
    v.Spans .dotted n (n + (Segment.dotted ss).pieces.length) := by
  induction ss generalizing n with
  | nil => exact .noDot
  | cons s ss ih =>
    obtain ⟨hs, hss⟩ := List.forall_mem_cons.1 hss
    have hsegment : v.At (n + 1) (s.printed.pieces ++ ((Segment.dotted ss).pieces ++ rest)) := by
      rw [← List.append_assoc]
      exact h.next
    have hlen : (Segment.dotted (s :: ss)).pieces.length =
        1 + s.printed.pieces.length + (Segment.dotted ss).pieces.length := by
      rw [Nat.add_assoc, Nat.add_comm 1, ← List.length_append]
      rfl
    rw [hlen, ← Nat.add_assoc, ← Nat.add_assoc]
    exact .dot (h.kind_eq 0) (hs _ _ hsegment) (ih hss hsegment.behind)

theorem TypeRef.spanned (t : TypeRef) : t.Spanned v := by
  induction t using TypeRef.induction (S := fun s => s.Spanned v) with
  | name w args hargs => exact spans_segment w hargs
  | type first more k hfirst hmore =>
    intro n rest h
    have hpieces : (TypeRef.mk first more k).printed.pieces = first.printed.pieces ++
        ((Segment.dotted more).pieces ++ (bracketsPrinted k).pieces) := rfl
    rw [hpieces] at h ⊢
    rw [List.append_assoc, List.append_assoc] at h
    rw [List.length_append, List.length_append, ← Nat.add_assoc, ← Nat.add_assoc]
    exact .type (hfirst _ _ h) (spans_dotted hmore h.behind) (spans_brackets k h.behind.behind)

/-- Where a type comes next, the scan finds its end. -/
theorem TypeRef.typeEnd_eq (t : TypeRef) (h : v.Before (t.printed.pieces ++ rest))
    (hrest : Avoids typeMarks rest) : v.typeEnd? 0 = some t.printed.pieces.length := by
  have hspans := t.spanned 0 rest h.at
  have hbehind := h.at.behind
  rw [Nat.zero_add] at hspans hbehind
  exact hspans.typeEnd_eq (Lookahead.typeStops_of_kind rfl (hrest.kind_ne_at hbehind (by decide))
    (hrest.kind_ne_at hbehind (by decide)) (hrest.kind_ne_at hbehind (by decide)))

/-! ## Modifiers -/

/-- What modifiers stand in front of: no mark, no modifier and no word that goes on a
statement. -/
structure TakesModifiers (rest : List Piece) : Prop where
  noMark : ∀ m, (pieceAt rest 0).kind ≠ .mark m
  noModifier : (pieceAt rest 0).kind.isModifier = false
  goesOn : (pieceAt rest 0).kind.goesOn = false
  notEnd : (pieceAt rest 0).kind ≠ .eof

theorem takesModifiers_named (n : Name) : TakesModifiers (.named n.word :: rest) :=
  ⟨fun _ => nofun, rfl, rfl, nofun⟩

theorem takesModifiers_keyword {k : Keyword} (h : (Kind.keyword k).isModifier = false)
    (hg : (Kind.keyword k).goesOn = false) : TakesModifiers (.keyword k :: rest) :=
  ⟨fun _ => nofun, h, hg, nofun⟩

theorem TypeRef.takesModifiers (t : TypeRef) : TakesModifiers (t.printed.pieces ++ rest) := by
  obtain ⟨⟨w, args⟩, more, k⟩ := t
  cases w with
  | named n => exact takesModifiers_named n
  | list => exact takesModifiers_keyword rfl rfl
  | map => exact takesModifiers_keyword rfl rfl

/-- Modifiers start with a keyword that is one, or with the sign of an annotation. -/
theorem modifiers_ahead {P : Kind → Prop} (ms : List Modifier) (hsign : P (.mark .atSign))
    (hword : ∀ k, (Kind.keyword k).isModifier = true → P (.keyword k))
    (hrest : P (pieceAt rest 0).kind) :
    P (pieceAt ((modifiersPrinted ms).pieces ++ rest) 0).kind := by
  cases ms with
  | nil => exact hrest
  | cons m ms =>
    cases m with
    | word w => exact hword _ w.isModifier
    | sharing s => exact hword s.keyword (by cases s <;> rfl)
    | annotated first more => exact hsign

theorem ModifierWord.modifierLength_eq (w : ModifierWord) (h : v.kind n = .keyword w.keyword) :
    v.modifierLength n = 1 := by
  obtain ⟨k, hk, ha⟩ := w
  rw [Lookahead.modifierLength, h]
  split
  case h_4 => exact if_pos hk
  all_goals
    rename_i he
    cases he
    simp at ha

theorem Sharing.modifierLength_eq (s : Sharing) (h : v.kind n = .keyword s.keyword)
    (h' : v.kind (n + 1) = .keyword .sharingKw) : v.modifierLength n = 2 := by
  cases s <;> simp_all [Lookahead.modifierLength, Sharing.keyword]

theorem TakesModifiers.modifierLength_eq (h : TakesModifiers rest) (hv : v.Before rest) :
    v.modifierLength 0 = 0 := by
  have hk := h.noModifier
  rw [← hv.kind_eq 0] at hk
  rw [Lookahead.modifierLength]
  split <;> simp_all [Kind.isModifier]

theorem annotated_readBy (first : Name) (more : List Name)
    (h : Avoids [.dot, .lParen] rest) :
    (Modifier.annotated first more).printed.ReadBy annotationSteps rest := by
  have hword : (flat [.named first.word]).ReadBy [.expect .word]
      ((flat (Soql.memberPieces more)).pieces ++ rest) := readBy_expect (bne_iff_ne.2 first.word_ne)
  have hname : (flat (.named first.word :: Soql.memberPieces more)).ReadBy
      [.expect .word, .soql .dottedWords] rest :=
    hword.append (Soql.dots_readBy (fun n => bne_iff_ne.2 n.word_ne) more (h.ne (by decide)))
  have hqualified : (node .qualifiedName
      (flat (.named first.word :: Soql.memberPieces more))).ReadBy [.decl .qualifiedName] rest :=
    hname.node.decl fun v hv => rfl
  have hnone : nothing.ReadBy [.decl .annotationArguments] rest := by
    refine readBy_nothing.decl fun v hv => ?_
    have hk : v.kind 0 ≠ .mark .lParen := h.kind_ne hv (by decide)
    simp [DeclPart.expand, Lookahead.atMark, hk]
  have hpart : (join [mark .atSign, _]).ReadBy
      [.take 1, .decl .qualifiedName, .decl .annotationArguments] rest :=
    .cons readBy_take (hqualified.idle hnone)
  exact hpart.node

theorem modifiers_readBy (ms : List Modifier) (h : TakesModifiers rest) :
    (modifiersPrinted ms).ReadBy [.decl .modifiers] rest := by
  induction ms with
  | nil =>
    refine readBy_nothing.decl fun v hv => ?_
    have hk : v.kind 0 ≠ .mark .atSign := by
      rw [hv.kind_eq 0]
      exact h.noMark _
    simp [DeclPart.expand, Lookahead.atMark, hk, h.modifierLength_eq hv]
  | cons m ms ih =>
    cases m with
    | word w =>
      refine ((readBy_keyword (k := w.keyword)).node.append ih).decl fun v hv => ?_
      have hk : v.kind 0 = .keyword w.keyword := hv.kind_eq 0
      simp [DeclPart.expand, Lookahead.atMark, hk, w.modifierLength_eq hk]
    | sharing s =>
      refine ((readBy_takeTwo (a := .keyword s.keyword)).node.append ih).decl fun v hv => ?_
      have hk : v.kind 0 = .keyword s.keyword := hv.kind_eq 0
      simp [DeclPart.expand, Lookahead.atMark, hk, s.modifierLength_eq hk (hv.kind_eq 1)]
    | annotated first more =>
      have hbehind : Avoids [.dot, .lParen] ((modifiersPrinted ms).pieces ++ rest) := by
        intro m hm
        refine modifiers_ahead ms (P := (· ≠ .mark m)) ?_ (by simp) (h.noMark m)
        intro heq
        cases heq
        simp at hm
      refine ((annotated_readBy first more hbehind).append ih).decl fun v hv => ?_
      have hk : v.kind 0 = .mark .atSign := hv.kind_eq 0
      simp [DeclPart.expand, Lookahead.atMark, hk]

/-! ## Variables -/

/-- Behind a variable comes a comma or a semicolon. -/
def EndsVariable (rest : List Piece) : Prop :=
  ∃ m ps, rest = .mark m :: ps ∧ m ∈ [Mark.comma, .semi]

theorem endsVariable_mark {m : Mark} (h : m ∈ [Mark.comma, .semi]) :
    EndsVariable (.mark m :: rest) := ⟨m, rest, rfl, h⟩

theorem EndsVariable.stops (h : EndsVariable rest) : Stops 0 rest := by
  obtain ⟨m, ps, rfl, hm⟩ := h
  simp only [List.mem_cons, List.not_mem_nil, or_false] at hm
  rcases hm with rfl | rfl
  · exact stops_of_none (by decide) rfl
  · exact stops_of_none (by decide) rfl

theorem EndsVariable.avoids (h : EndsVariable rest) (hm : ∀ m ∈ [Mark.comma, .semi], m ∉ ms) :
    Avoids ms rest := by
  obtain ⟨m, ps, rfl, hmem⟩ := h
  exact avoids_mark (hm m hmem)

/-- An operand by itself is read as an expression. -/
theorem expression_readBy {x : Printed} (h : x.ReadBy [.expr .primary] rest)
    (hu : ∀ v : Lookahead, v.Before (x.pieces ++ rest) → unarySteps v = [.expr .operand])
    (hs : Stops 0 rest) : x.ReadBy [.expr .expression] rest := by
  intro p hp
  obtain ⟨q, hq, hg⟩ := h p hp
  have hidle : Runs (pending p.tree.mark 0 15) q q :=
    runs_pending (Nat.le_refl 15) (hs q.lookahead hg.before).2
  exact ⟨q, runs_operand (Nat.zero_le _) (hu _ hp) (hq.append hidle), hg⟩

theorem Initial.readBy (i : Initial) (h : EndsVariable rest) :
    i.printed.ReadBy [.expr .expression] rest := by
  cases i with
  | literal c =>
    have hliteral : ∀ v : Lookahead, v.Before ([c.piece] ++ rest) →
        (v.kind 0).isLiteral = true := by
      intro v hv
      rw [hv.kind_eq 0]
      exact c.isLiteral
    have hpart : (node .literal (flat [c.piece])).ReadBy [.expr .literal] rest :=
      Matches.take.node.expr fun v mark hv => by
        rw [ExprPart.expand, if_pos (hliteral v hv)]
        rfl
    have hprimary : (Initial.literal c).printed.ReadBy [.expr .primary] rest :=
      hpart.node.expr fun v mark hv => by
        rw [ExprPart.expand, (steps_of_isLiteral (hliteral v hv)).1]
    exact expression_readBy hprimary (fun v hv => (steps_of_isLiteral (hliteral v hv)).2) h.stops
  | name n =>
    have hnext : Avoids [.lParen, .lt, .lBrack] rest := h.avoids (by decide)
    have hprimary : (Initial.name n).printed.ReadBy [.expr .primary] rest := by
      refine Soql.matches_name n fun m hm => ?_
      refine ⟨?_, ?_, ?_⟩ <;> rintro rfl <;> exact hnext _ (by decide) hm
    refine expression_readBy hprimary (fun v hv => ?_) h.stops
    have hk : v.kind 0 = .identifier := hv.kind_eq 0
    simp [unarySteps, hk]

theorem Declarator.readBy (d : Declarator) (h : EndsVariable rest) :
    d.printed.ReadBy [.decl .variable] rest := by
  obtain ⟨n, i⟩ := d
  have hvalue : (initialPrinted i).ReadBy [.decl .variableValue] rest := by
    cases i with
    | none =>
      have hassign : Avoids [.assign] rest := h.avoids (by decide)
      refine readBy_nothing.decl fun v hv => ?_
      have hk : v.kind 0 ≠ .mark .assign := hassign.kind_ne hv (by decide)
      simp [DeclPart.expand, Lookahead.atMark, hk]
    | some i =>
      have hpart : (join [mark .assign, i.printed]).ReadBy [.take 1, .expr .expression] rest :=
        .cons readBy_take (i.readBy h)
      refine hpart.decl fun v hv => ?_
      have hk : v.kind 0 = .mark .assign := hv.kind_eq 0
      simp [DeclPart.expand, Lookahead.atMark, hk]
  have hpart : (join [.name n, initialPrinted i]).ReadBy
      [.expect .identifier, .decl .variableValue] rest := .cons (readBy_name n) hvalue
  exact hpart.node.decl fun v hv => rfl

theorem variables_readBy (d : Declarator) (ds : List Declarator) :
    (list d.printed (ds.map Declarator.printed)).ReadBy [.decl .variables]
      (.mark .semi :: rest) := by
  have hlist : (list d.printed (ds.map Declarator.printed)).ReadBy
      [.decl .variable, .decl .moreVariables] (.mark .semi :: rest) :=
    list_readBy (fun _ => rfl) (fun _ => endsVariable_mark (by decide))
      (fun d _ _ hd => d.readBy hd) (endsVariable_mark (by decide)) nofun
  exact hlist.decl fun v hv => rfl

/-! ## Parameters and results -/

theorem Parameter.readBy (p : Parameter) : p.printed.ReadBy [.decl .parameter] rest := by
  have hpart : (join [modifiersPrinted p.modifiers, p.type.printed, .name p.name]).ReadBy
      [.decl .modifiers, .typ .type, .expect .identifier] rest := by
    refine .cons (modifiers_readBy _ ?_) (.cons (p.type.readBy _ (avoids_named _)) (readBy_name _))
    rw [pieces_join]
    exact p.type.takesModifiers
  exact hpart.node.decl fun v hv => rfl

theorem Parameter.ahead (p : Parameter) :
    (pieceAt (p.printed.pieces ++ rest) 0).kind ≠ .mark .rParen := by
  have hpieces : p.printed.pieces ++ rest = (modifiersPrinted p.modifiers).pieces ++
      ((join [p.type.printed, .name p.name]).pieces ++ rest) := pieces_join
  rw [hpieces, pieces_join]
  exact modifiers_ahead _ (P := (· ≠ .mark .rParen)) nofun (fun _ _ => nofun)
    (p.type.takesModifiers.noMark _)

theorem parameters_readBy (ps : List Parameter) :
    (parametersPrinted ps).ReadBy [.decl .parameters] rest := by
  have hlist : (Soql.arguments (ps.map Parameter.printed)).ReadBy [.decl .parameterList]
      (.mark .rParen :: rest) := by
    cases ps with
    | nil =>
      refine readBy_nothing.decl fun v hv => ?_
      have hk : v.kind 0 = .mark .rParen := hv.kind_eq 0
      simp [DeclPart.expand, Lookahead.atMark, hk]
    | cons p ps =>
      have hparts : (list p.printed (ps.map Parameter.printed)).ReadBy
          [.decl .parameter, .decl .moreParameters] (.mark .rParen :: rest) :=
        list_readBy (F := fun _ => True) (fun _ => rfl) (fun _ => trivial)
          (fun p _ _ _ => p.readBy) trivial (by simp [pieceAt])
      refine hparts.decl fun v hv => ?_
      have hk : v.kind 0 ≠ .mark .rParen := by
        rw [hv.kind_eq 0, list, pieces_join]
        exact p.ahead
      simp [DeclPart.expand, Lookahead.atMark, hk]
  have hpart : (join [mark .lParen, Soql.arguments (ps.map Parameter.printed), mark .rParen]).ReadBy
      [.expect (.mark .lParen), .decl .parameterList, .expect (.mark .rParen)] rest :=
    .cons (readBy_mark .lParen) (.cons hlist (readBy_mark .rParen))
  exact hpart.node.decl fun v hv => rfl

theorem result_readBy (t : Option TypeRef) (n : Name) :
    (resultPrinted t).ReadBy [.decl .resultType] (.named n.word :: rest) := by
  cases t with
  | none =>
    refine (readBy_keyword (k := .voidKw)).decl fun v hv => ?_
    have hk : v.kind 0 = .keyword .voidKw := hv.kind_eq 0
    simp [DeclPart.expand, Lookahead.atKeyword, hk]
  | some t =>
    refine (t.readBy _ (avoids_named n)).decl fun v hv => ?_
    have hk : v.kind 0 ≠ .keyword .voidKw := by
      rw [hv.kind_eq 0]
      obtain ⟨⟨w, args⟩, more, k⟩ := t
      cases w <;> rintro ⟨⟩
    simp [DeclPart.expand, Lookahead.atKeyword, hk]

/-! ## Bodies, constants and types behind keywords -/

theorem body_readBy (b : Option Body) (h : (pieceAt rest 0).kind.goesOn = false) :
    (bodyPrinted b).ReadBy [.decl .methodBody] rest := by
  cases b with
  | none =>
    refine (readBy_mark .semi).decl fun v hv => ?_
    have hk : v.kind 0 = .mark .semi := hv.kind_eq 0
    simp [DeclPart.expand, Lookahead.atMark, hk]
  | some b =>
    refine (b.readBy h).decl fun v hv => ?_
    have hk : v.kind 0 = .mark .lBrace := (hv.kind_eq 0).trans b.ahead
    simp [DeclPart.expand, Lookahead.atMark, hk]

theorem accessorBody_readBy (b : Option Body) (h : (pieceAt rest 0).kind.goesOn = false) :
    (bodyPrinted b).ReadBy [.decl .accessorBody] rest := by
  cases b with
  | none =>
    refine (readBy_take (a := .mark .semi)).decl fun v hv => ?_
    have hk : v.kind 0 = .mark .semi := hv.kind_eq 0
    simp [DeclPart.expand, Lookahead.atMark, hk]
  | some b =>
    refine (b.readBy h).decl fun v hv => ?_
    have hk : v.kind 0 = .mark .lBrace := (hv.kind_eq 0).trans b.ahead
    simp [DeclPart.expand, Lookahead.atMark, hk]

/-- Types behind a keyword, or none. -/
theorem typesPrinted_readBy {k : Keyword} {part : DeclPart} (ts : List TypeRef)
    (hpart : ∀ v, part.expand v = if v.atKeyword k then [.take 1, .typ .list] else [])
    (hrest : Avoids (.comma :: typeMarks) rest) (hk : (pieceAt rest 0).kind ≠ .keyword k) :
    (typesPrinted k ts).ReadBy [.decl part] rest := by
  cases ts with
  | nil =>
    refine readBy_nothing.decl fun v hv => ?_
    rw [hpart, if_neg]
    rw [Lookahead.atKeyword, beq_iff_eq, hv.kind_eq 0]
    exact hk
  | cons t ts =>
    have htypes : (join [keyword k, list t.printed (ts.map TypeRef.printed)]).ReadBy
        [.take 1, .typ .list] rest :=
      .cons readBy_take (types_readBy (fun u _ => u.readBy) hrest)
    refine htypes.decl fun v hv => ?_
    have hk : v.kind 0 = .keyword k := hv.kind_eq 0
    simp [hpart, Lookahead.atKeyword, hk]

/-- The type that a class extends, or none. -/
theorem superclass_readBy (t : Option TypeRef) (hrest : Avoids typeMarks rest)
    (hk : (pieceAt rest 0).kind ≠ .keyword .extendsKw) :
    (typesPrinted .extendsKw t.toList).ReadBy [.decl .superclass] rest := by
  cases t with
  | none =>
    refine readBy_nothing.decl fun v hv => ?_
    have hk' : v.kind 0 ≠ .keyword .extendsKw := by
      rw [hv.kind_eq 0]
      exact hk
    simp [DeclPart.expand, Lookahead.atKeyword, hk']
  | some t =>
    have htype : (join [keyword .extendsKw, list t.printed []]).ReadBy [.take 1, .typ .type] rest :=
      .cons readBy_take ((t.readBy _ hrest).append readBy_nothing)
    refine htype.decl fun v hv => ?_
    have hk : v.kind 0 = .keyword .extendsKw := hv.kind_eq 0
    simp [DeclPart.expand, Lookahead.atKeyword, hk]

theorem constants_readBy (ns : List Name) :
    (join [constantsPrinted ns, mark .rBrace]).ReadBy [.decl .enumConstants] rest := by
  cases ns with
  | nil =>
    refine (readBy_mark .rBrace).decl fun v hv => ?_
    have hi : v.isIdentifier 0 = false := hv.isIdentifier_eq 0
    simp [DeclPart.expand, hi]
  | cons n ns =>
    have hlist : (list (.name n) (ns.map Printed.name)).ReadBy
        [.expect .identifier, .decl .moreConstants] (.mark .rBrace :: rest) :=
      list_readBy (F := fun _ => True) (fun _ => rfl) (fun _ => trivial)
        (fun n _ _ _ => readBy_name n) trivial (by simp [pieceAt])
    refine (hlist.append (readBy_mark .rBrace)).decl fun v hv => ?_
    have hi : v.isIdentifier 0 = true := hv.isIdentifier_eq 0
    simp [DeclPart.expand, hi]

end Decl

end ApexSyntax
