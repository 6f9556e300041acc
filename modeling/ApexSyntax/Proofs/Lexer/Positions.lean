-- Reported places are true. Lines and columns are counted character by character; here
-- they are told from the text alone: the line feeds before a place, and the characters
-- behind the last of them.
import ApexSyntax.Proofs.Folding.Texts
import ApexSyntax.Proofs.Lexer.Intervals
import ApexSyntax.Proofs.Lexer.Places
import ApexSyntax.Proofs.Lexer.Resuming

namespace ApexSyntax

open Text

/-! ## Places told from the text -/

/-- The place behind the first characters of a text: one line for each line feed among
them, and one column for each character behind the last of these. -/
def Place.behind (cs : List Char) : Place :=
  ⟨1 + cs.count '\n', 1 + (cs.reverse.takeWhile (· ≠ '\n')).length⟩

/-- The place of the character with an index. -/
def Place.inText (text : String) (i : Nat) : Place := .behind (text.toList.take i)

/-- An error is about the characters from an index on, and has the place of the first
of them. -/
def SyntaxError.IsFrom (text : String) (i : Nat) (e : SyntaxError) : Prop :=
  e.place = .inText text i ∧ ∃ n, 0 < n ∧ i + n ≤ text.length ∧
    e.message = "token recognition error at: '" ++
      oneLine (String.ofList ((text.toList.drop i).take n)) ++ "'"

theorem Text.show_eq_lineFeed_iff (casing : Casing) (c : Char) :
    casing.show c = '\n' ↔ c = '\n' := by
  cases casing with
  | exact => exact Iff.rfl
  | folded =>
    by_cases h : 'A' ≤ c ∧ c ≤ 'Z'
    · obtain ⟨i, rfl⟩ := exists_of_isCapital h
      revert i
      decide
    · rw [Casing.show, foldChar_of_not_capital h]

namespace Place

theorem behind_concat (cs : List Char) (c : Char) :
    behind (cs ++ [c]) = (behind cs).after c := by
  by_cases h : c = '\n'
  · subst h
    simp [behind, after, List.count_append, Nat.add_assoc]
  · have hc : List.count '\n' [c] = 0 := List.count_eq_zero.2 (by simpa using Ne.symm h)
    simp [behind, after, h, List.count_append, hc]
    omega

/-- Counting on character by character, as they are written or as they are seen. -/
theorem behind_append (casing : Casing) (cs ds : List Char) :
    (behind cs).afterAll (ds.map casing.show) = behind (cs ++ ds) := by
  induction ds generalizing cs with
  | nil => rw [List.append_nil]; rfl
  | cons d ds ih =>
    have hd : (behind cs).after (casing.show d) = behind (cs ++ [d]) := by
      rw [behind_concat]
      simp only [after, show_eq_lineFeed_iff]
    have hstep : (behind cs).afterAll ((d :: ds).map casing.show) =
        ((behind cs).after (casing.show d)).afterAll (ds.map casing.show) := rfl
    rw [hstep, hd, ih, List.append_assoc, List.singleton_append]

end Place

/-! ## Places that are kept -/

namespace Lexer

/-- The place of the lexer is that of the next character of its text. -/
def Placed (l : Lexer) : Prop :=
  l.place = .behind (l.reader.cursor.source.toList.take l.index)

variable {l m : Lexer}

theorem placed_skip (h : l.Placed) {n : Nat} (hn : n ≤ l.reader.rest.length) :
    (l.skip n).Placed := by
  have hplace : (l.skip n).place = l.place.afterAll (l.reader.rest.take n) := rfl
  have hsource : (l.skip n).reader.cursor.source = l.reader.cursor.source := rfl
  rw [Placed, hplace, hsource, index_skip hn, h, rest_eq_ahead, ← List.map_take,
    Place.behind_append, ahead, List.take_add]

/-- The lexer stays in its text, and knows its place wherever it comes. -/
theorem Passes.placed (h : l.Passes m) (hl : l.Placed) :
    m.reader.cursor.source = l.reader.cursor.source ∧ m.Placed := by
  induction h with
  | here l => exact ⟨rfl, hl⟩
  | skip hn _ ih => exact ih (placed_skip hl hn)
  | report _ ih => exact ih hl

theorem peek_eq_ahead (l : Lexer) (n : Nat) :
    l.reader.peek n = String.ofList (l.ahead.take n) := by
  rw [← String.toList_inj, String.toList_ofList]
  exact l.text_tokenOf .blank n

/-- What is found has the place where it stands. -/
theorem Finds.isFrom {i : Nat} {e : SyntaxError} {text : String} (h : l.Finds i e)
    (hl : l.Placed) (hs : l.reader.cursor.source.toList = text.toList) : e.IsFrom text i := by
  obtain ⟨m, n, hm, rfl, hn, hle, rfl⟩ := h
  obtain ⟨hsource, hplaced⟩ := hm.placed hl
  have hs' : m.reader.cursor.source.toList = text.toList := by rw [hsource, hs]
  refine ⟨?_, n, hn, ?_, ?_⟩
  · rw [Place.inText, ← hs']
    exact hplaced
  · have hlen : m.shown.length = text.length := by
      rw [shown, List.length_map, hs', String.length_toList]
    have := m.index_add_rest
    omega
  · rw [unreadableError, peek_eq_ahead, ahead, hs']

end Lexer

namespace Answers

variable {l l' : Lexer} {as : List Answer}

/-- Each token is taken where the lexer comes past, and behind all of them it is done. -/
theorem passes (h : Answers l as l') :
    (∀ t ∈ Answer.tokens as, ∃ m kind n, l.Passes m ∧ t = m.tokenOf kind n) ∧
      ∃ m, l.Passes m ∧ l' = { m with done := true } := by
  induction h with
  | @done l _ => exact ⟨fun t ht => absurd ht List.not_mem_nil, l, .here l, rfl⟩
  | @token l l' as c rest kind n hr hs _ ih =>
    obtain ⟨hts, m, hm, hend⟩ := ih
    have hle := Lexer.size_le_rest hr
    rw [hs] at hle
    refine ⟨?_, m, .skip hle hm, hend⟩
    intro t ht
    rcases List.mem_cons.1 ht with rfl | ht
    · exact ⟨l, kind, n, .here l, rfl⟩
    · obtain ⟨m', kind', k, hm', rfl⟩ := hts t ht
      exact ⟨m', kind', k, .skip hle hm', rfl⟩
  | @unreadable l l' as c rest shown skipped hr hs _ ih =>
    obtain ⟨hts, m, hm, hend⟩ := ih
    have hle := Lexer.size_le_rest hr
    rw [hs] at hle
    refine ⟨?_, m, .skip hle (.report hm), hend⟩
    intro t ht
    obtain ⟨m', kind, k, hm', rfl⟩ := hts t ht
    exact ⟨m', kind, k, .skip hle (.report hm'), rfl⟩

end Answers

/-! ## Whole texts -/

/-- Reported places are true, whoever listens. All tokens that calls give, the end among
them for as long as calls go on, have the line and the column of their first character,
told from the text alone. So do the errors, thrown or heard: there is one for each
place where something of the text is lost, in order, about the characters from there on. -/
theorem places_true (casing : Casing) (text : String) (ls : List Listener) :
    let l : Lexer := { Lexer.ofString casing text with listeners := ls }
    ∃ (ts : List Token) (eof : Token) (es : List SyntaxError) (loss : Loss),
      (Answer.tokens l.untilDone.1 = ts ++ [eof] ∧ ∀ n, l.untilDone.2.nthCall n = .ok eof) ∧
      (Answer.errors l.untilDone.1 = (if Listener.stopsAt ls then es else []) ∧
        l.untilDone.2.listeners = Listener.hearEach es ls) ∧
      (∀ t ∈ ts ++ [eof], t.place = .inText text t.start) ∧
      (Tiled (text.toList.map casing.show) 0 ts loss ∧ eof.isEof ∧ eof.start = text.length) ∧
      List.Forall₂ (SyntaxError.IsFrom text) loss.places es := by
  intro l
  obtain ⟨as, l', ha⟩ := l.exists_answers
  obtain ⟨loss, htiled, hfinds⟩ := ha.tiled
  obtain ⟨hpasses, m, hm, hend⟩ := ha.passes
  have hl : l.Placed := rfl
  have hsource : l.reader.cursor.source.toList = text.toList := rfl
  have htrue : ∀ m, l.Passes m → m.place = .inText text m.index := by
    intro m hm
    obtain ⟨hs, hp⟩ := hm.placed hl
    rw [hp, hs, hsource, Place.inText]
  have hlast : l'.index = text.length := by
    rw [ha.lexes.index_end, Lexer.shown, List.length_map, hsource, String.length_toList]
  have hcalls := ha.untilDone_eq rfl
  have heof : Answer.errors [.ok l'.eofToken] = [] := rfl
  refine ⟨Answer.tokens as, l'.eofToken, Answer.errors as, loss, ⟨?_, ?_⟩, ⟨?_, ?_⟩, ?_,
    ⟨htiled, rfl, hlast⟩, hfinds.imp fun _ _ hf => hf.isFrom hl hsource⟩
  · rw [hcalls, Answer.tokens_append]
    split
    · rfl
    · rw [Answer.tokens_map_ok]
      rfl
  · intro n
    rw [hcalls, Lexer.nthCall, ha.lexes.afterCalls_end, ha.lexes.next_end]
  · rw [hcalls, Answer.errors_append, heof, List.append_nil]
    split
    · rfl
    · exact Answer.errors_map_ok _
  · rw [hcalls]
    exact ha.listeners
  · intro t ht
    rcases List.mem_append.1 ht with ht | ht
    · obtain ⟨m', kind, n, hm', rfl⟩ := hpasses t ht
      exact htrue m' hm'
    · rw [List.mem_singleton.1 ht, hend]
      exact htrue m hm

end ApexSyntax
