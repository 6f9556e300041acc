-- The scan of a type foretells what reading the type does. The two go in step: to each
-- state of the scan belong the steps that the parser has still to do there, and each turn
-- of the scan is a stretch of the run. Where the scan gives up the parser reports.
import ApexSyntax.Proofs.Lexer.Calls
import ApexSyntax.Proofs.Lookahead.TypePhrases
import ApexSyntax.Proofs.Parser.Termination
import ApexSyntax.Proofs.Replay.Braces

namespace ApexSyntax

namespace Parser

/-! ## Further on, with nothing reported -/

/-- A parser has come some places further on, and nothing was reported on the way. -/
structure Stands (p : Parser) (n : Nat) (q : Parser) : Prop extends Quietly p q where
  position : q.position = p.position + n

/-- The steps come to others, whatever they are. -/
abbrev ComesTo : List Step → Parser → List Step → Parser → Prop := Comes fun _ _ => True

section Stands

variable {p q : Parser} {n i : Nat}

theorem Stands.refl (p : Parser) : Stands p 0 p := ⟨.refl p, rfl⟩

namespace Stands

theorem nth_eq (h : Stands p n q) (i : Nat) : q.lookahead.nth i = p.lookahead.nth (n + i) := by
  simp only [Lookahead.nth, lookahead, h.stream, h.position, Nat.add_assoc]

theorem kind_eq (h : Stands p n q) (i : Nat) : q.lookahead.kind i = p.lookahead.kind (n + i) := by
  rw [Lookahead.kind, h.nth_eq, Lookahead.kind]

theorem isTypeName_eq (h : Stands p n q) (i : Nat) :
    q.lookahead.isTypeName i = p.lookahead.isTypeName (n + i) := by
  rw [Lookahead.isTypeName, h.nth_eq, Lookahead.isTypeName]

theorem build (h : Stands p n q) (f : Builder → Builder) : Stands p n (q.build f) :=
  ⟨h.toQuietly.trans (.build q f), h.position⟩

theorem take (h : Stands p n q) (hne : p.lookahead.kind n ≠ .eof) : Stands p (n + 1) q.take where
  toQuietly := h.toQuietly.trans (.take q)
  position := by
    rw [position_take_of_kind (by rwa [h.kind_eq 0]), h.position, Nat.add_assoc]

end Stands

end Stands

/-! ## The steps that wait -/

/-- The steps behind a type: nothing, or the rest of the list of arguments that it stands in,
and what is left of the type that the list belongs to. -/
def closers : Nat → List Step
  | 0 => []
  | outer + 1 =>
    .typ .moreTypes :: .expect (.mark .gt) :: .finish ::
      .typ .dottedNames :: .typ .dimensions :: .finish :: closers outer

/-- The steps that the parser has to do where a scan has come to: a name, unless it is read,
and what is left of the type. -/
def waiting (named : Bool) (depth : Nat) : List Step :=
  if named then .typ .dottedNames :: .typ .dimensions :: .finish :: closers depth
  else .typ .name :: .typ .dottedNames :: .typ .dimensions :: .finish :: closers depth

variable {p q q' : Parser} {named named' : Bool} {depth depth' n n' m : Nat}
  {part : TypePart} {more rest ts : List Step} {r : Rule}

theorem comesTo_part (hs : part.expand q.lookahead = more) (h : ComesTo (more ++ rest) q ts q') :
    ComesTo (.typ part :: rest) q ts q' := .perform trivial (by rw [perform, hs]) h

theorem comesTo_take (h : ComesTo rest q.take ts q') : ComesTo (.take 1 :: rest) q ts q' :=
  .perform trivial rfl h

theorem comesTo_start (h : ComesTo rest (q.build (·.start r)) ts q') :
    ComesTo (.start r :: rest) q ts q' := .perform trivial rfl h

theorem comesTo_finish (h : ComesTo rest (q.build (·.finish)) ts q') :
    ComesTo (.finish :: rest) q ts q' := .perform trivial rfl h

/-- A type starts with a name. -/
theorem comesTo_type : ComesTo (.typ .type :: rest) q
    (.typ .name :: .typ .dottedNames :: .typ .dimensions :: .finish :: rest)
    (q.build (·.start .typeRef)) :=
  comesTo_part rfl (comesTo_start (.here _ _))

theorem comesTo_dimensions (h : Stands p n q) :
    ∃ q', ComesTo (.typ .dimensions :: rest) q rest q' ∧
      Stands p (p.lookahead.dimensionsEnd p.lookahead.left n) q' := by
  have hends := p.lookahead.scansEnd.dimensions n
  generalize p.lookahead.dimensionsEnd p.lookahead.left n = m at hends ⊢
  induction hends generalizing q with
  | @last n m hturn =>
    rw [Lookahead.dimensionsTurn, ← h.kind_eq 1, ← Nat.add_zero n, ← h.kind_eq 0] at hturn
    split at hturn
    · cases hturn
    · next hno =>
      cases hturn
      exact ⟨q, comesTo_part (by rw [TypePart.expand, Lookahead.atMark, if_neg hno]) (.here _ q), h⟩
  | @again n n' m hturn _ ih =>
    rw [Lookahead.dimensionsTurn] at hturn
    split at hturn
    · next hyes =>
      cases hturn
      simp only [Bool.and_eq_true, beq_iff_eq] at hyes
      have htwo : Stands p (n + 2) q.take.take :=
        (h.take (by simp [hyes])).take (by simp [hyes])
      obtain ⟨q', hq', hstands⟩ := ih htwo
      have hsteps : TypePart.dimensions.expand q.lookahead = [.take 2, .typ .dimensions] := by
        simp [TypePart.expand, Lookahead.atMark, h.kind_eq, hyes]
      exact ⟨q', comesTo_part hsteps (.perform trivial rfl hq'), hstands⟩
    · cases hturn

/-! ## Turns in step -/

/-- A step stands next that expects what is not there. -/
def Refuses (q : Parser) (ss : List Step) : Prop :=
  ∃ e rest, ss = .expect e :: rest ∧ e.accepts q.current = false

/-- What a stretch of a run comes to, from what a turn of a scan gives. -/
def Follows (p q : Parser) (ss : List Step) : (Bool × Nat × Nat) ⊕ Option Nat → Prop
  | .inl (named, depth, n) => ∃ q', ComesTo ss q (waiting named depth) q' ∧ Stands p n q'
  | .inr (some n) => ∃ q', ComesTo ss q [] q' ∧ Stands p n q'
  | .inr none => ∃ n q' ts, ComesTo ss q ts q' ∧ Stands p n q' ∧ Refuses q' ts

theorem Follows.before {ss : List Step} {r : (Bool × Nat × Nat) ⊕ Option Nat}
    (h : ComesTo ss q ts q') (hf : Follows p q' ts r) : Follows p q ss r := by
  rcases r with ⟨named, depth, n⟩ | _ | n
  · obtain ⟨q'', hq, hstands⟩ := hf
    exact ⟨q'', h.trans hq, hstands⟩
  · obtain ⟨n, q'', us, hq, hstands⟩ := hf
    exact ⟨n, q'', us, h.trans hq, hstands⟩
  · obtain ⟨q'', hq, hstands⟩ := hf
    exact ⟨q'', h.trans hq, hstands⟩

/-- A turn that reads a name, and opens the list of its arguments. -/
theorem follows_name (h : Stands p n q) :
    Follows p q (waiting false depth) (p.lookahead.typeTurn (false, depth, n)) := by
  rw [Lookahead.typeTurn]
  split
  · next hname =>
    have hq : q.lookahead.isTypeName 0 = true := by rw [h.isTypeName_eq 0, Nat.add_zero, hname]
    have htake : Stands p (n + 1) q.take := h.take (Lookahead.kind_ne_of_isTypeName hname).1
    have hsteps : TypePart.name.expand q.lookahead = [.take 1, .typ .arguments] := by
      rw [TypePart.expand, if_pos hq]
    have hpart : ComesTo (waiting false depth) q (.typ .arguments :: waiting true depth) q.take :=
      comesTo_part hsteps (comesTo_take (.here _ _))
    refine .before hpart ?_
    have hlt : q.take.lookahead.atMark .lt = (p.lookahead.kind (n + 1) == .mark .lt) := by
      rw [Lookahead.atMark, htake.kind_eq 0, Nat.add_zero]
    split
    · next hopen =>
      have hsteps : TypePart.arguments.expand q.take.lookahead =
          [.start .typeArguments, .take 1, .typ .list, .expect (.mark .gt), .finish] := by
        rw [TypePart.expand, hlt, if_pos hopen]
      have htwo := (htake.build (·.start .typeArguments)).take (by simp [beq_iff_eq.1 hopen])
      refine ⟨_, ?_, htwo.build (·.start .typeRef)⟩
      have hlist : TypePart.list.expand (q.take.build (·.start .typeArguments)).take.lookahead =
          [.typ .type, .typ .moreTypes] := rfl
      exact comesTo_part hsteps (comesTo_start (comesTo_take (comesTo_part hlist comesTo_type)))
    · next hno =>
      have hnone : TypePart.arguments.expand q.take.lookahead = [] := by
        rw [TypePart.expand, hlt, if_neg hno]
      exact ⟨q.take, comesTo_part hnone (.here _ _), htake⟩
  · next hno =>
    have hq : ¬q.lookahead.isTypeName 0 = true := by rwa [h.isTypeName_eq 0, Nat.add_zero]
    have hsteps : TypePart.name.expand q.lookahead = [.expect .identifier, .typ .arguments] := by
      rw [TypePart.expand, if_neg hq]
    have hname : (q.lookahead.nth 0).isTypeName = false := Bool.eq_false_iff.2 hq
    simp only [Token.isTypeName, Bool.or_eq_false_iff] at hname
    exact ⟨n, q, _, comesTo_part hsteps (.here _ _), h, _, _, rfl, hname.1.1⟩

/-- Behind an argument stands another one, or the end of the list. -/
theorem follows_closed (h : Stands p m q) :
    Follows p q (closers depth) (p.lookahead.typeClosed depth m) := by
  cases depth with
  | zero => exact ⟨q, .here _ q, h⟩
  | succ outer =>
    have hkind : q.lookahead.kind 0 = p.lookahead.kind m := by rw [h.kind_eq 0, Nat.add_zero]
    rw [Lookahead.typeClosed]
    split
    · next hcomma =>
      have hsteps : TypePart.moreTypes.expand q.lookahead =
          [.take 1, .typ .type, .typ .moreTypes] := by
        rw [TypePart.expand, Lookahead.atMark, hkind, if_pos hcomma]
      have htake := h.take (by simp [beq_iff_eq.1 hcomma])
      exact ⟨_, comesTo_part hsteps (comesTo_take comesTo_type), htake.build (·.start .typeRef)⟩
    · next hno =>
      have hsteps : TypePart.moreTypes.expand q.lookahead = [] := by
        rw [TypePart.expand, Lookahead.atMark, hkind, if_neg hno]
      refine .before (comesTo_part hsteps (.here _ q)) ?_
      have haccepts : (Expected.mark .gt).accepts q.current =
          (p.lookahead.kind m == .mark .gt) := by
        rw [← hkind]
        rfl
      split
      · next hgt =>
        have hperform : q.perform (.expect (.mark .gt)) = (q.take, .ok []) := by
          rw [perform, expect, haccepts, if_pos hgt]
        have htake := h.take (by simp [beq_iff_eq.1 hgt])
        exact ⟨_, .perform trivial hperform (comesTo_finish (.here _ _)), htake.build (·.finish)⟩
      · next hgt =>
        exact ⟨m, q, _, .here _ q, h, _, _, rfl, haccepts.trans (Bool.eq_false_iff.2 hgt)⟩

/-- A turn behind a name: another name behind a dot, or the brackets and what the list of
arguments goes on with. -/
theorem follows_behind (h : Stands p n q) :
    Follows p q (waiting true depth) (p.lookahead.typeTurn (true, depth, n)) := by
  have hdot : (q.lookahead.atMark .dot && q.lookahead.isTypeName 1) =
      (p.lookahead.kind n == .mark .dot && p.lookahead.isTypeName (n + 1)) := by
    rw [Lookahead.atMark, h.kind_eq 0, h.isTypeName_eq 1, Nat.add_zero]
  rw [Lookahead.typeTurn]
  split
  · next hmore =>
    have hsteps : TypePart.dottedNames.expand q.lookahead =
        [.take 1, .typ .name, .typ .dottedNames] := by
      rw [TypePart.expand, hdot, if_pos hmore]
    have hmark : p.lookahead.kind n = .mark .dot := by
      simpa using (Bool.and_eq_true_iff.1 hmore).1
    exact ⟨q.take, comesTo_part hsteps (comesTo_take (.here _ _)), h.take (by simp [hmark])⟩
  · next hno =>
    have hsteps : TypePart.dottedNames.expand q.lookahead = [] := by
      rw [TypePart.expand, hdot, if_neg hno]
    obtain ⟨q', hq', hstands⟩ : ∃ q', ComesTo (.typ .dimensions :: .finish :: closers depth) q
        (.finish :: closers depth) q' ∧
          Stands p (p.lookahead.dimensionsEnd p.lookahead.left n) q' := comesTo_dimensions h
    have hclose : ComesTo (waiting true depth) q (closers depth) (q'.build (·.finish)) :=
      comesTo_part hsteps (hq'.trans (comesTo_finish (.here _ _)))
    exact .before hclose (follows_closed (hstands.build (·.finish)))

/-- The scan goes in step with the parser all the way. -/
theorem follows_of_ends {s : Bool × Nat × Nat} {r : Option Nat}
    (hends : Ends p.lookahead.typeTurn s r) (h : Stands p s.2.2 q) :
    Follows p q (waiting s.1 s.2.1) (.inr r) := by
  have hturn : ∀ (s : Bool × Nat × Nat) (q : Parser), Stands p s.2.2 q →
      Follows p q (waiting s.1 s.2.1) (p.lookahead.typeTurn s) := by
    rintro ⟨named, depth, n⟩ q h
    cases named with
    | false => exact follows_name h
    | true => exact follows_behind h
  induction hends generalizing q with
  | @last s r hlast =>
    have hfollows := hturn s q h
    rwa [hlast] at hfollows
  | @again s s' r hagain _ ih =>
    have hfollows := hturn s q h
    rw [hagain] at hfollows
    obtain ⟨q', hq', hstands⟩ := hfollows
    exact (ih hstands).before hq'

/-! ## Runs -/

section Runs

variable {ss : List Step} {k : Nat} {ending : Ending}

/-- A run that ends passes whatever its steps come to. -/
theorem Comes.runWithin_behind {allowed : Parser → Step → Prop} (h : Comes allowed ss p ts q)
    (hr : runWithin k ss p = (q', ending)) (hne : ending ≠ .exhausted) :
    ∃ k', runWithin k' ts q = (q', ending) := by
  induction h generalizing k with
  | here _ _ => exact ⟨k, hr⟩
  | perform _ hp _ ih =>
    cases k with
    | zero =>
      cases hr
      exact absurd rfl hne
    | succ k =>
      rw [runWithin, hp] at hr
      exact ih hr

/-- Where an expected token is not there, a run reports that. -/
theorem Refuses.errorCount_lt (h : Refuses q ss) (hq : q.recovering = false)
    (hr : runWithin k ss q = (q', ending)) (hne : ending ≠ .exhausted) :
    q.errorCount < q'.errorCount := by
  cases ending with
  | exhausted => exact absurd rfl hne
  | thrown e => exact errorCount_lt_of_thrown hr
  | finished =>
    obtain ⟨e, rest, rfl, hno⟩ := h
    obtain ⟨q₁, hfirst, hrest⟩ := (leads_of_runWithin hr).uncons
    obtain ⟨q₂, more, hp, hmore⟩ := hfirst.inv
    have hreport : ∃ message, q₂ = (q.report message).1 := by
      rcases expect_ok hp with ⟨hyes, -⟩ | ⟨-, -, hreport, -⟩ | ⟨hreport, -⟩
      · rw [hno] at hyes
        cases hyes
      · exact hreport
      · exact hreport
    obtain ⟨message, rfl⟩ := hreport
    have hcount : (q.report message).1.errorCount = q.errorCount + 1 := by
      rw [errorCount_report, hq]
      rfl
    have h1 := hmore.moves.errorCount_le
    have h2 := hrest.moves.errorCount_le
    omega

end Runs

/-! ## Agreement -/

/-- The parser reads a type of so many tokens, and reports nothing. -/
def ReadsType (p : Parser) (n : Nat) : Prop :=
  ∃ q, runWithin p.fuel [.typ .type] p = (q, .finished) ∧ Stands p n q

theorem readsType_of_typeEnd (h : p.lookahead.typeEnd? 0 = some n) : p.ReadsType n := by
  have hends := p.lookahead.scansEnd.type 0
  rw [h] at hends
  obtain ⟨q, hq, hstands⟩ := follows_of_ends hends ((Stands.refl p).build (·.start .typeRef))
  obtain ⟨q', ending, hrun, hne⟩ := exists_ends_of_plain (s := .typ .type) rfl p
  obtain ⟨k, hk⟩ := (comesTo_type.trans hq).runWithin_behind hrun hne
  rw [runWithin_nil] at hk
  cases hk
  exact ⟨q, hrun, hstands⟩

theorem reports_of_typeEnd (hp : p.recovering = false) (h : p.lookahead.typeEnd? 0 = none) :
    ∃ q ending, runWithin p.fuel [.typ .type] p = (q, ending) ∧ ending ≠ .exhausted ∧
      p.errorCount < q.errorCount := by
  have hends := p.lookahead.scansEnd.type 0
  rw [h] at hends
  obtain ⟨n, q, ts, hq, hstands, hrefuses⟩ :=
    follows_of_ends hends ((Stands.refl p).build (·.start .typeRef))
  obtain ⟨q', ending, hrun, hne⟩ := exists_ends_of_plain (s := .typ .type) rfl p
  obtain ⟨k, hk⟩ := (comesTo_type.trans hq).runWithin_behind hrun hne
  have hlt := hrefuses.errorCount_lt (hstands.recovering hp) hk hne
  rw [hstands.errorCount] at hlt
  exact ⟨q', ending, hrun, hne, hlt⟩

/-- Where the scan finds the end of a type, the parser reads the type up to there and
reports nothing. Where the scan finds none, the parser reports. The scan finds the end of
every type that stands ahead, and so the parser reads it whole; only the kinds of the tokens
count for that, so the marks that close lists of arguments may touch or not. -/
theorem typeEnd_agrees (hp : p.recovering = false) :
    (∀ n, p.lookahead.typeEnd? 0 = some n → p.ReadsType n) ∧
      (p.lookahead.typeEnd? 0 = none →
        ∃ q ending, runWithin p.fuel [.typ .type] p = (q, ending) ∧ ending ≠ .exhausted ∧
          p.errorCount < q.errorCount) ∧
      ∀ n, p.lookahead.Spans .type 0 n → p.lookahead.TypeStops n →
        p.lookahead.typeEnd? 0 = some n ∧ p.ReadsType n := by
  refine ⟨fun n h => readsType_of_typeEnd h, reports_of_typeEnd hp, fun n hspans hstops => ?_⟩
  have hend := hspans.typeEnd_eq hstops
  exact ⟨hend, readsType_of_typeEnd hend⟩

theorem typeEnd_agrees_nestedArguments :
    (∃ s, TokenStream.ofString .folded "Map<Id, List<b.C>>[] x" = .ok s ∧
      (ofStream s).recovering = false ∧ (ofStream s).lookahead.Spans .type 0 13 ∧
      (ofStream s).lookahead.TypeStops 13 ∧ (ofStream s).ReadsType 13) ∧
    (∃ s, TokenStream.ofString .folded "Map<Id, List<b.C> > [ ] x" = .ok s ∧
      (ofStream s).recovering = false ∧ (ofStream s).lookahead.typeEnd? 0 = some 13 ∧
      (ofStream s).ReadsType 13) ∧
    ∃ s, TokenStream.ofString .folded "Map<Id, List<b.C>[] x" = .ok s ∧
      (ofStream s).recovering = false ∧ (ofStream s).lookahead.typeEnd? 0 = none ∧
      ∃ q ending, runWithin (ofStream s).fuel [.typ .type] (ofStream s) = (q, ending) ∧
        ending ≠ .exhausted ∧ 0 < q.errorCount := by
  refine ⟨?_, ?_, ?_⟩
  · have hread : ∃ s, TokenStream.ofString .folded "Map<Id, List<b.C>>[] x" = .ok s ∧
        (let v := (ofStream s).lookahead
        v.isTypeName 0 ∧ v.kind 1 = .mark .lt ∧ v.isTypeName 2 ∧ v.kind 3 = .mark .comma ∧
          v.isTypeName 4 ∧ v.kind 5 = .mark .lt ∧ v.isTypeName 6 ∧ v.kind 7 = .mark .dot ∧
          v.isTypeName 8 ∧ v.kind 9 = .mark .gt ∧ v.kind 10 = .mark .gt ∧
          v.kind 11 = .mark .lBrack ∧ v.kind 12 = .mark .rBrack ∧ v.kind 13 = .identifier) :=
      TokenStream.exists_ofString (by decide +kernel)
    obtain ⟨s, hs, hmap, hlt, hid, hcomma, hlist, hlt', hb, hdot, hc, hgt, hgt', hleft, hright,
      hbehind⟩ := hread
    have hinner : (ofStream s).lookahead.Spans .type 4 10 :=
      .type (.generic hlist hlt'
        (.one (.type (.plain hb) (.dot hdot (.plain hc) .noDot) .noBracket)) hgt)
        .noDot .noBracket
    have hspans : (ofStream s).lookahead.Spans .type 0 13 :=
      .type (.generic hmap hlt (.comma (.type (.plain hid) .noDot .noBracket) hcomma (.one hinner))
        hgt') .noDot (.bracket hleft hright .noBracket)
    have hstops : (ofStream s).lookahead.TypeStops 13 :=
      Lookahead.typeStops_of_kind hbehind nofun nofun nofun
    exact ⟨s, hs, rfl, hspans, hstops,
      ((typeEnd_agrees (p := ofStream s) rfl).2.2 13 hspans hstops).2⟩
  · have hread : ∃ s, TokenStream.ofString .folded "Map<Id, List<b.C> > [ ] x" = .ok s ∧
        (ofStream s).lookahead.typeEnd? 0 = some 13 :=
      TokenStream.exists_ofString (by decide +kernel)
    obtain ⟨s, hs, hend⟩ := hread
    exact ⟨s, hs, rfl, hend, (typeEnd_agrees (p := ofStream s) rfl).1 13 hend⟩
  · have hread : ∃ s, TokenStream.ofString .folded "Map<Id, List<b.C>[] x" = .ok s ∧
        (ofStream s).lookahead.typeEnd? 0 = none :=
      TokenStream.exists_ofString (by decide +kernel)
    obtain ⟨s, hs, hend⟩ := hread
    exact ⟨s, hs, rfl, hend, (typeEnd_agrees (p := ofStream s) rfl).2.1 hend⟩

end Parser

end ApexSyntax
