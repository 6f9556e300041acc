-- All tokens of a text. The end stands apart from the tokens before it, so a
-- stream has exactly one end, and looking past it finds the end again.
import ApexSyntax.Token.Lexer

namespace ApexSyntax

structure TokenStream where
  /-- The tokens before the end, hidden ones included. -/
  tokens : Array Token
  /-- The end of the text. -/
  eof : Token
  /-- The tokens before the end that the parser sees. -/
  visible : Array Token
  eof_eq : eof = .endOfText eof.line eof.column eof.start tokens.size
  kind_tokens : ∀ t ∈ tokens, t.kind ≠ .eof
  visible_eq : visible = tokens.filter fun t => !t.isHidden

namespace TokenStream

/-- The stream of some tokens, with the end of the text where `last` stands. -/
def ofTokens (tokens : Array Token) (last : Token) (kind_tokens : ∀ t ∈ tokens, t.kind ≠ .eof) :
    TokenStream :=
  ⟨tokens, .endOfText last.line last.column last.start tokens.size,
    tokens.filter fun t => !t.isHidden, rfl, kind_tokens, rfl⟩

/-- The stream with no token before its end. -/
def empty : TokenStream := ofTokens #[] (.endOfText 1 1 0 0) (by simp)

/-! ## From a lexer -/

/-- Collects tokens, at most `fuel` more. -/
def drainWithin : Nat → Lexer → (tokens : Array Token) → (∀ t ∈ tokens, t.kind ≠ .eof) →
    Except SyntaxError TokenStream
  | 0, l, tokens, h => .ok (ofTokens tokens l.eofToken h)
  | fuel + 1, l, tokens, h =>
    match l.next with
    | (_, .error e) => .error e
    | (l', .ok t) =>
      if ht : t.kind = .eof then .ok (ofTokens tokens t h)
      else
        drainWithin fuel l' (tokens.push { t with index := tokens.size }) (by
          intro s hs
          rcases Array.mem_push.1 hs with hs | rfl
          · exact h s hs
          · exact ht)

/-- All tokens of a lexer, up to the end of its text. There are at most as many
as characters. Fails only when a listener throws. -/
def ofLexer (l : Lexer) : Except SyntaxError TokenStream :=
  drainWithin (l.reader.left + 1) l #[] (by simp)

def ofString (casing : Text.Casing) (text : String) : Except SyntaxError TokenStream :=
  ofLexer (.ofString casing text)

/-! ## Views -/

/-- The `i`th token that the parser sees, or the end. -/
def nth (s : TokenStream) (i : Nat) : Token := s.visible.getD i s.eof

/-- The number of tokens that the parser sees, the end included. -/
def visibleCount (s : TokenStream) : Nat := s.visible.size + 1

/-- All tokens, the end last. -/
def toList (s : TokenStream) : List Token := s.tokens.toList ++ [s.eof]

/-- The texts of all tokens before the end, joined. -/
def text (s : TokenStream) : String := s.tokens.foldl (fun acc t => acc ++ t.text) ""

/-! ## Laws of looking ahead -/

@[simp] theorem kind_eof (s : TokenStream) : s.eof.kind = .eof := by rw [s.eof_eq]; rfl

@[simp] theorem word_eof (s : TokenStream) : s.eof.word = "" := by rw [s.eof_eq]; rfl

theorem nth_of_le {s : TokenStream} {i : Nat} (h : s.visible.size ≤ i) : s.nth i = s.eof := by
  simp [nth, Array.getD, Nat.not_lt.2 h]

theorem nth_mem {s : TokenStream} {i : Nat} (h : i < s.visible.size) : s.nth i ∈ s.tokens := by
  have : s.nth i ∈ s.visible := by simp [nth, Array.getD, h]
  rw [s.visible_eq] at this
  exact (Array.mem_filter.1 this).1

/-- The end is seen exactly from the last visible token on. -/
theorem kind_nth_eq_eof_iff (s : TokenStream) (i : Nat) :
    (s.nth i).kind = .eof ↔ s.visible.size ≤ i := by
  constructor
  · intro h
    apply Nat.le_of_not_lt
    intro hi
    exact s.kind_tokens _ (nth_mem hi) h
  · intro h
    rw [nth_of_le h]; exact s.kind_eof

end TokenStream

end ApexSyntax
