-- Blocks that are read without an error by themselves, as the bodies of declarations. A body
-- is printed as its own tokens, and read among others as it was read alone.
import ApexSyntax.Proofs.Printing.Printed
import ApexSyntax.Proofs.Replay.Angles
import ApexSyntax.Proofs.Replay.Windows

namespace ApexSyntax

open ApexSyntax.Parser

/-! ## Bodies -/

/-- Only the kind and the word of a token. -/
def Token.bare (t : Token) : Token := (⟨t.kind, t.word, false⟩ : Piece).token

theorem bare_eq_iff {t u : Token} : u.bare = t.bare ↔ u.kind = t.kind ∧ u.word = t.word := by
  simp [Token.bare, Piece.token]

theorem keepsWords_bare : KeepsWords Token.bare where
  kind h := (bare_eq_iff.1 h).1
  word h := (bare_eq_iff.1 h).2

mutual

theorem Tree.outline_map_bare : ∀ t : Tree, (t.map Token.bare).outline = t.outline
  | .node r ts => by rw [Tree.map, Tree.outline, Tree.outline, Tree.outlines_mapAll_bare ts]
  | .token t => by rw [Tree.map_token, Tree.outline, Tree.outline]; rfl
  | .skipped t => by rw [Tree.map_skipped, Tree.outline, Tree.outline]; rfl

theorem Tree.outlines_mapAll_bare :
    ∀ ts : List Tree, Tree.outlines (Tree.mapAll Token.bare ts) = Tree.outlines ts
  | [] => rfl
  | t :: ts => by
    rw [Tree.mapAll, Tree.outlines, Tree.outlines, Tree.outline_map_bare t,
      Tree.outlines_mapAll_bare ts]

end

theorem SameThrough.outlines_eq {ts us : List Tree} (h : SameThrough Token.bare ts us) :
    Tree.outlines us = Tree.outlines ts := by
  rw [SameThrough, ← Tree.mapAll_eq_map, ← Tree.mapAll_eq_map] at h
  rw [← Tree.outlines_mapAll_bare us, h, Tree.outlines_mapAll_bare]

/-- The token of a stream as it is printed. An angle touches the next one if it did. -/
def TokenStream.piece (s : TokenStream) (i : Nat) : Piece :=
  ⟨(s.nth i).kind, (s.nth i).word,
    Lookahead.doubled ⟨s, i⟩ .lt || Lookahead.doubled ⟨s, i⟩ .gt⟩

/-- A block that is read as a statement by itself: no error is reported, and all its tokens
are read. -/
structure Body where
  tokens : TokenStream
  spelled : tokens.Spelled
  opens : (tokens.nth 0).kind = .mark .lBrace
  clean : ((ofStream tokens).parse .statement).1.errorCount = 0
  whole : ((ofStream tokens).parse .statement).1.position = tokens.visible.size

namespace Body

/-- The body that a stream holds, if its tokens are one. -/
def ofStream? (s : TokenStream) : Option Body :=
  if h : s.Spelled ∧ (s.nth 0).kind = .mark .lBrace ∧
      ((ofStream s).parse .statement).1.errorCount = 0 ∧
      ((ofStream s).parse .statement).1.position = s.visible.size then
    some ⟨s, h.1, h.2.1, h.2.2.1, h.2.2.2⟩
  else none

theorem ofStream?_tokens (b : Body) : ofStream? b.tokens = some b :=
  dif_pos ⟨b.spelled, b.opens, b.clean, b.whole⟩

/-- The trees inside of the statement that a body is read as. -/
def trees (b : Body) : List Tree :=
  match ((ofStream b.tokens).parse .statement).2 with
  | .ok (.node _ ts) => ts
  | _ => []

/-- The tokens of the body, and the block that they are read as. -/
def printed (b : Body) : Printed :=
  ⟨(List.range b.tokens.visible.size).map b.tokens.piece, Tree.outlines b.trees⟩

variable {b : Body}

/-- The run that reads the body by itself. -/
theorem exists_run (b : Body) : ∃ q, Leads Tame [.stmt .block]
      ((ofStream b.tokens).build (·.start .statement)) q ∧ q.position = b.tokens.visible.size ∧
    ∀ ts, q.tree = (Builder.empty.start .statement).addAll ts → b.trees = ts := by
  obtain ⟨r, hrun⟩ := run_finished (p := ofStream b.tokens) rfl .statement
  have hparse := parse_of_run hrun nofun
  have he : r.errorCount = 0 := by
    have hclean := b.clean
    rwa [hparse] at hclean
  have hpos : r.position = b.tokens.visible.size := by
    have hwhole := b.whole
    rwa [hparse] at hwhole
  have hcalm := calm_of_guarded (guarded_entry (leads_of_runWithin hrun)) rfl he
  have hsteps : StmtPart.statement.expand (ofStream b.tokens).lookahead =
      [.start .statement, .stmt .block, .finish] := by
    have hk : (ofStream b.tokens).lookahead.kind 0 = .mark .lBrace := b.opens
    simp [StmtPart.expand, statementSteps, hk]
  obtain ⟨p1, more, hp, hm⟩ := hcalm.inv
  have hperform : (ofStream b.tokens).perform (.stmt .statement) =
      (ofStream b.tokens, .ok [.start .statement, .stmt .block, .finish]) := by
    rw [perform, hsteps]
  cases hp.symm.trans hperform
  obtain ⟨p2, h2, hm⟩ := hm.uncons
  obtain rfl := h2.single rfl
  obtain ⟨q, hq, hm⟩ := hm.uncons
  obtain rfl := hm.single rfl
  refine ⟨q, tame_of_calm hq (holds_of_steady (by simp [Step.Steady, Step.plain])), hpos, ?_⟩
  intro ts hts
  rw [trees, hparse, tree_build, hts, Builder.finish_addAll_start]
  rfl

/-- A body is read as one block. -/
theorem exists_outlines (b : Body) : ∃ os, b.printed.outlines = [.node .block os] := by
  obtain ⟨q, hq, -, htrees⟩ := b.exists_run
  obtain ⟨p, more, hp, hm⟩ := hq.inv
  cases hp
  obtain ⟨p', hstart, hrest⟩ := hm.shaped
  have hopen : p'.tree = ((Builder.empty.start .statement).start .block).addAll [] := hstart
  have hinner : ShapedAll
      ([Step.expectThen (.mark .lBrace) (.stmt .blockStatements)] ++ [Step.finish]) p' q := hrest
  obtain ⟨ts, hts⟩ := node_of_closes rfl hinner hopen
  refine ⟨Tree.outlines ts, ?_⟩
  rw [printed, htrees [.node .block ts] hts]
  rfl

theorem pieceAt_printed (b : Body) {rest : List Piece} {i : Nat}
    (hi : i < b.tokens.visible.size) :
    pieceAt (b.printed.pieces ++ rest) i = (b.tokens.piece i).token := by
  have hlt : i < b.printed.pieces.length := by simpa [printed] using hi
  rw [pieceAt, List.getElem?_append_left hlt]
  simp [printed, hi]

/-- A body starts with its brace. -/
theorem ahead (b : Body) {rest : List Piece} :
    (pieceAt (b.printed.pieces ++ rest) 0).kind = .mark .lBrace := by
  rw [b.pieceAt_printed (b.tokens.lt_of_kind_mark b.opens)]
  exact b.opens

/-- The tokens of the body stand in a stream from a place on. -/
theorem window {v : Lookahead} {rest : List Piece} (h : v.Before (b.printed.pieces ++ rest)) :
    b.tokens.Window Token.bare v.stream v.position := by
  intro i hi
  have hn := h.nth_eq i
  rw [b.pieceAt_printed hi] at hn
  rw [Nat.add_comm i, bare_eq_iff]
  exact hn

/-- Where angles touch in the body, they do in the stream. -/
theorem keepsShifts {v : Lookahead} {rest : List Piece}
    (h : v.Before (b.printed.pieces ++ rest)) :
    KeepsShifts b.tokens v.stream v.position := by
  intro i m hm hd
  have hmarks := hd
  simp only [Lookahead.doubled, Lookahead.atMark, Bool.and_eq_true, beq_iff_eq] at hmarks
  have hi : i + 1 < b.tokens.visible.size := b.tokens.lt_of_kind_mark hmarks.1.2
  have hlen : b.printed.pieces.length = b.tokens.visible.size := by simp [printed]
  have h0 := keepsWords_bare.kind (window h i (by omega))
  have h1 := keepsWords_bare.kind (window h (i + 1) hi)
  have hdrop := h.drop (n := i) (by rw [List.length_append]; omega)
  rw [List.drop_append_of_le_length (by omega), List.drop_eq_getElem_cons (by omega)] at hdrop
  have htouch : Lookahead.touches ⟨v.stream, v.position + i⟩ 0 = true := by
    refine hdrop.1.2.2.2 ?_
    rcases hm with rfl | rfl <;> simp [printed, TokenStream.piece, hd]
  simp only [Lookahead.doubled, Lookahead.atMark, Bool.and_eq_true, beq_iff_eq]
  rw [Nat.add_comm i]
  refine ⟨⟨?_, ?_⟩, htouch⟩
  · rw [← hmarks.1.1]
    rw [Nat.add_comm i] at h0
    exact h0
  · rw [← hmarks.1.2]
    rw [Nat.add_right_comm, Nat.add_comm i] at h1
    exact h1

/-- A body is read as a block wherever no word comes next that goes on a statement. -/
theorem readBy (b : Body) {rest : List Piece} (h : (pieceAt rest 0).kind.goesOn = false) :
    b.printed.ReadBy [.stmt .block] rest := by
  intro p hp
  obtain ⟨q, hq, hpos, htrees⟩ := b.exists_run
  have hsealed := sealed_of_tame hq rfl
  have hlen : b.printed.pieces.length = b.tokens.visible.size := by simp [printed]
  have hbefore : Lookahead.Before ⟨p.stream, p.position + b.tokens.visible.size⟩ rest := by
    have hdrop := hp.drop (n := b.printed.pieces.length) (by rw [List.length_append]; omega)
    rw [List.drop_left, hlen] at hdrop
    exact hdrop
  have hcopy : Copies Token.bare (Builder.empty.start .statement) p.tree p.stream p.position 0
      ((ofStream b.tokens).build (·.start .statement)) p :=
    ⟨rfl, (Nat.zero_add _).symm, .refl _ _ _⟩
  have hgo : (p.stream.nth (q.position + p.position)).kind.goesOn = false := by
    have hk : (p.stream.nth (p.position + b.tokens.visible.size + 0)).kind = _ :=
      hbefore.kind_eq 0
    rw [hpos, Nat.add_comm, ← h, ← hk]
    rfl
  have hsee : Leads (SeesOperators p.stream p.position) [.stmt .block]
      ((ofStream b.tokens).build (·.start .statement)) q :=
    hsealed.seesOperators_of_tight (tight_of_tame hq rfl) keepsWords_bare (window hp)
      (keepsShifts hp) b.spelled
  obtain ⟨r, hr, hcr, hquiet⟩ := hcopy.replay_sealed keepsWords_bare (window hp) b.spelled hsealed
    hsee hgo rfl
  obtain ⟨ts, us, hts, hus, hsame⟩ := hcr.tree.added
  refine ⟨r, hr, ?_, ⟨us, hus, ?_⟩, hquiet.stream, hquiet.listeners, hquiet.errorCount,
    hquiet.recovering⟩
  · rw [lookahead, hquiet.stream, hcr.position, hpos, Nat.add_comm]
    exact hbefore
  · rw [hsame.outlines_eq, ← htrees ts hts]
    rfl

end Body

end ApexSyntax
