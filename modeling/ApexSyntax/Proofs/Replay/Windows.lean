-- A stream that holds the tokens of another from some place on. A member that is read in
-- the one is read the same way in the other: it looks no further than its last token, but
-- for a word that goes on a conditional or a try.
import ApexSyntax.Proofs.Lexer.Words
import ApexSyntax.Proofs.Replay.Seals
import ApexSyntax.Proofs.Replay.Steps

namespace ApexSyntax

/-- A keyword that goes on a conditional or a try. -/
def Kind.goesOn : Kind → Bool
  | .keyword .elseKw | .keyword .catchKw | .keyword .finallyKw => true
  | _ => false

namespace TokenStream

variable {f : Token → Token} {t s : TokenStream} {d e i : Nat}

/-- The tokens of a stream stand in another from a place on, up to a map. -/
def Window (f : Token → Token) (t s : TokenStream) (d : Nat) : Prop :=
  ∀ i < t.visible.size, f (s.nth (i + d)) = f (t.nth i)

/-- Angles of one kind that stand side by side touch in the other stream if they do here,
and only then. -/
def AnglesIn (t s : TokenStream) (d : Nat) : Prop :=
  ∀ i m, m = .lt ∨ m = .gt → (t.nth i).kind = .mark m → (t.nth (i + 1)).kind = .mark m →
    ((s.nth (i + 1 + d)).index = (s.nth (i + d)).index + 1 ↔
      (t.nth (i + 1)).index = (t.nth i).index + 1)

theorem lt_of_kind_mark {m : Mark} (h : (t.nth i).kind = .mark m) : i < t.visible.size := by
  apply Nat.lt_of_not_le
  intro hle
  rw [(t.kind_nth_eq_eof_iff i).2 hle] at h
  cases h

/-- A semicolon or a closing brace is a token that no decision looks past. -/
theorem Spelled.isBoundary {m : Mark} (h : t.Spelled) (hk : (t.nth i).kind = .mark m)
    (hm : m.seals = true) : (t.nth i).isBoundary = true := by
  have hw : (t.nth i).word = "" := h.word_nth (by rw [hk]; rfl)
  cases m with
  | semi | rBrace => simp [Token.isBoundary, hw, hk]
  | _ => cases hm

/-- The tokens up to a boundary decide, wherever they stand. -/
theorem alike_of_agrees (hf : KeepsWords f) (h : ∀ i < e, f (s.nth (i + d)) = f (t.nth i))
    (hi : i < e) (hb : (t.nth (e - 1)).isBoundary = true) :
    Lookahead.Alike ⟨t, i⟩ ⟨s, i + d⟩ (e - 1 - i) where
  kind n hn := by
    have hn' := hf.kind (h (i + n) (by omega))
    rwa [show i + n + d = i + d + n by omega] at hn'
  word n hn := by
    have hn' := hf.word (h (i + n) (by omega))
    rwa [show i + n + d = i + d + n by omega] at hn'
  boundary := by
    rw [Lookahead.nth, show i + (e - 1 - i) = e - 1 by omega]
    exact hb

theorem Window.alike (hf : KeepsWords f) (h : t.Window f s d) (hi : i < e)
    (he : e ≤ t.visible.size) (hb : (t.nth (e - 1)).isBoundary = true) :
    Lookahead.Alike ⟨t, i⟩ ⟨s, i + d⟩ (e - 1 - i) :=
  alike_of_agrees hf (fun j hj => h j (Nat.lt_of_lt_of_le hj he)) hi hb

theorem AnglesIn.anglesAlike (h : t.AnglesIn s d) (i : Nat) :
    Lookahead.AnglesAlike ⟨t, i⟩ ⟨s, i + d⟩ := by
  intro n m hm h0 h1
  have hi := h (i + n) m hm h0 h1
  rw [Bool.eq_iff_iff, Lookahead.touches, Lookahead.touches, beq_iff_eq, beq_iff_eq]
  rw [show i + n + 1 + d = i + d + (n + 1) by omega, show i + n + d = i + d + n by omega] at hi
  exact hi

end TokenStream

namespace Parser

section Windows

variable {f : Token → Token} {b c : Builder} {s : TokenStream} {d e k : Nat} {p q r : Parser}
  {st : Step} {ss : List Step}

/-- The operators that a step asks for are the same in the window. -/
def SeesOperators (s : TokenStream) (d : Nat) (p : Parser) (st : Step) : Prop :=
  ∀ level m, st = .expr (.operators level m) →
    Lookahead.operatorAhead ⟨s, p.position + d⟩ level = p.lookahead.operatorAhead level

/-- A step in front of a boundary sees the same in the window. -/
theorem sees_in_front (hf : KeepsWords f)
    (hw : ∀ i < e, f (s.nth (i + d)) = f (p.stream.nth i))
    (hb : (p.stream.nth (e - 1)).isBoundary = true) (ho : SeesOperators s d p st)
    (hp : p.position < e) (hn : ∀ n, st = .take n → p.position + n ≤ e) : Sees f s d p st := by
  have halike := TokenStream.alike_of_agrees hf hw hp hb
  have hcur : f (s.nth (p.position + d)) = f p.current := hw _ hp
  cases st with
  | take n =>
    intro i hi
    have hle := hn n rfl
    rw [show p.position + d + i = p.position + i + d by omega]
    exact hw _ (by omega)
  | takeIf _ | expect _ | expectThen _ _ | endOfText | skipRest => exact hcur
  | typ part => exact part.expand_alike halike
  | expr part =>
    intro mark
    refine part.expand_alike halike mark ?_
    rintro level m rfl
    exact ho level m rfl
  | soql part => exact part.expand_alike halike
  | stmt part => exact part.expand_alike halike rfl
  | decl part => exact part.expand_alike halike rfl
  | _ => trivial

/-- Behind the boundary a step that trails does nothing in the window either, where
nothing goes on what ends there. -/
theorem sees_behind (hg : (s.nth (p.position + d)).kind.goesOn = false) (ht : st.trails = true)
    (hst : (p.perform st).2 = .ok []) : Sees f s d p st := by
  have hk : ∀ w, (Kind.keyword w).goesOn = true →
      Lookahead.atKeyword ⟨s, p.position + d⟩ w = false := by
    intro w hw
    rw [Lookahead.atKeyword, beq_eq_false_iff_ne]
    intro heq
    rw [← heq] at hw
    rw [show (s.nth (p.position + d)).kind.goesOn = true from hw] at hg
    cases hg
  cases st with
  | stmt part =>
    have hexp : part.expand p.lookahead = [] := Except.ok.inj hst
    rw [Sees, hexp]
    cases part with
    | elseBranch => simp [StmtPart.expand, hk .elseKw rfl]
    | moreHandlers => simp [StmtPart.expand, hk .catchKw rfl, hk .finallyKw rfl]
    | _ => cases ht
  | finish | progress _ => trivial
  | _ => cases ht

theorem sees_of_inside (hf : KeepsWords f) (hw : p.stream.Window f s d)
    (he : e ≤ p.stream.visible.size) (hb : (p.stream.nth (e - 1)).isBoundary = true)
    (hg : (s.nth (e + d)).kind.goesOn = false) (ho : SeesOperators s d p st)
    (h : Inside e p st) : Sees f s d p st := by
  rcases h.place with ⟨hp, hn⟩ | ⟨rfl, ht, hst⟩
  · exact sees_in_front hf (fun i hi => hw i (Nat.lt_of_lt_of_le hi he)) hb ho hp hn
  · exact sees_behind hg ht hst

/-- There is only one run of some steps. -/
theorem Leads.unique {allowed allowed' : Parser → Step → Prop} (h : Leads allowed ss p q)
    (h' : Leads allowed' ss p r) : r = q := by
  induction h generalizing r with
  | done p => cases h'; rfl
  | perform _ hp _ _ ih1 ih2 =>
    cases h' with
    | perform _ hp' hm' hrest' =>
      rw [hp] at hp'
      cases hp'
      obtain rfl := ih1 hm'
      exact ih2 hrest'

/-- What is known of a run in two ways is known of each of its steps. -/
theorem Leads.and {allowed allowed' : Parser → Step → Prop} (h : Leads allowed ss p q)
    (h' : Leads allowed' ss p q) : Leads (fun p st => allowed p st ∧ allowed' p st) ss p q := by
  induction h with
  | done p => exact .done p
  | perform ha hp hm _ ih1 ih2 =>
    cases h' with
    | perform ha' hp' hm' hrest' =>
      rw [hp] at hp'
      cases hp'
      obtain rfl := hm.unique hm'
      exact .perform ⟨ha, ha'⟩ hp (ih1 hm') (ih2 hrest')

theorem Sealed.isBoundary (h : Sealed ss p q) (hs : p.stream.Spelled) :
    (p.stream.nth (q.position - 1)).isBoundary = true := by
  obtain ⟨m, hm, hclose⟩ := h.closing
  rw [h.inside.moves.stream] at hclose
  exact hs.isBoundary hclose hm

theorem Sealed.position_le (h : Sealed ss p q) : q.position ≤ p.stream.visible.size := by
  obtain ⟨m, _, hclose⟩ := h.closing
  rw [h.inside.moves.stream] at hclose
  have hlt := p.stream.lt_of_kind_mark hclose
  omega

/-- Where all angles are as they were, operators are. -/
theorem Sealed.seesOperators (h : Sealed ss p q) (hf : KeepsWords f)
    (hw : p.stream.Window f s d) (ha : p.stream.AnglesIn s d) (hs : p.stream.Spelled) :
    Leads (SeesOperators s d) ss p q := by
  refine h.inside.onStream.mono ?_
  rintro p' st ⟨hi, hstream⟩ level m rfl
  rcases hi.place with ⟨hp, _⟩ | ⟨_, ht, _⟩
  · have halike := hw.alike hf hp h.position_le (h.isBoundary hs)
    have hangles := ha.anglesAlike p'.position
    rw [← hstream] at halike hangles
    exact halike.operatorAhead hangles level
  · cases ht

/-- What a sealed run reads is read the same way in the window, unless a word goes on it
there. -/
theorem Copies.replay_sealed (hf : KeepsWords f) (hw : p.stream.Window f s d)
    (hs : p.stream.Spelled) (h : Sealed ss p q) (ho : Leads (SeesOperators s d) ss p q)
    (hg : (s.nth (q.position + d)).kind.goesOn = false) (hk : levelBehind k ss = some k)
    (hc : Copies f b c s d k p r) :
    ∃ r', Runs (ss.map (Step.shifted d)) r r' ∧ Copies f b c s d k q r' ∧ Quietly r r' := by
  have hb := h.isBoundary hs
  have he := h.position_le
  refine hc.replay hf ((h.inside.and ho).onStream.mono ?_) hk
  rintro p' st ⟨⟨hi, ho⟩, hstream⟩
  rw [← hstream] at hw he hb
  exact ⟨hi.calm, sees_of_inside hf hw he hb hg ho hi⟩

end Windows

end Parser

end ApexSyntax
