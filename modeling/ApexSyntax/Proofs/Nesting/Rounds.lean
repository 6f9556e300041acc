-- Parentheses that are open. They are counted token after token, and one that closes
-- nothing changes nothing. What nests like a word leaves as many open as the word does. In a
-- search, what stands between the braces of the term is not counted.
import ApexSyntax.Proofs.Nesting.Units

namespace ApexSyntax

/-! ## Open parentheses -/

/-- The number of parentheses that are open behind a token. -/
def Kind.roundsBehind (n : Nat) : Kind → Nat
  | mark .lParen => n + 1
  | mark .rParen => n - 1
  | _ => n

/-- The number of parentheses that are open behind some tokens. A parenthesis that closes
none that is open changes nothing. -/
def openRounds (n : Nat) (ks : List Kind) : Nat := ks.foldl Kind.roundsBehind n

namespace Kind

variable {k l : Kind} {b : Bracket} {m n : Nat}

theorem roundsBehind_plain (h : k.isPlain = true) (n : Nat) : roundsBehind n k = n := by
  unfold roundsBehind
  split <;> first | rfl | cases h

theorem roundsBehind_opened (h : k.opened? = some b) (n : Nat) :
    roundsBehind n k = if b = .round then n + 1 else n := by
  unfold opened? at h
  split at h <;> cases h <;> rfl

theorem roundsBehind_closed (h : k.closed? = some b) (n : Nat) :
    roundsBehind n k = if b = .round then n - 1 else n := by
  unfold closed? at h
  split at h <;> cases h <;> rfl

theorem roundsBehind_pair (hk : k.opened? = some b) (hl : l.closed? = some b) (n : Nat) :
    roundsBehind (roundsBehind n k) l = n := by
  rw [roundsBehind_closed hl, roundsBehind_opened hk]
  split <;> rfl

theorem roundsBehind_mono (h : m ≤ n) (k : Kind) : roundsBehind m k ≤ roundsBehind n k := by
  unfold roundsBehind
  split <;> omega

theorem roundsBehind_add (m n : Nat) (k : Kind) :
    roundsBehind (m + n) k ≤ m + roundsBehind n k := by
  unfold roundsBehind
  split <;> omega

end Kind

section Rounds

variable {ks ls : List Kind} {l : Kind} {b : Bracket} {m n : Nat}

@[simp] theorem openRounds_nil (n : Nat) : openRounds n [] = n := rfl

theorem openRounds_cons (n : Nat) (k : Kind) (ks : List Kind) :
    openRounds n (k :: ks) = openRounds (k.roundsBehind n) ks := rfl

theorem openRounds_append (n : Nat) (ks ls : List Kind) :
    openRounds n (ks ++ ls) = openRounds (openRounds n ks) ls := List.foldl_append

theorem openRounds_mono (h : m ≤ n) (ks : List Kind) : openRounds m ks ≤ openRounds n ks := by
  induction ks generalizing m n with
  | nil => exact h
  | cons k ks ih => exact ih (Kind.roundsBehind_mono h k)

/-- What is open before some tokens is at most still open behind them. -/
theorem openRounds_add (m n : Nat) (ks : List Kind) :
    openRounds (m + n) ks ≤ m + openRounds n ks := by
  induction ks generalizing n with
  | nil => exact Nat.le_refl _
  | cons k ks ih =>
    calc openRounds (m + n) (k :: ks)
        ≤ openRounds (m + k.roundsBehind n) ks := openRounds_mono (Kind.roundsBehind_add m n k) ks
      _ ≤ m + openRounds (k.roundsBehind n) ks := ih _

/-- Tokens that leave nothing open by themselves leave no more open than before. -/
theorem openRounds_le (h : openRounds 0 ks = 0) (n : Nat) : openRounds n ks ≤ n := by
  have hle := openRounds_add n 0 ks
  rwa [h] at hle

/-- One word after the other. -/
theorem openRounds_append_le {ks' ls' : List Kind} (h : ∀ n, openRounds n ks ≤ openRounds n ks')
    (h' : ∀ n, openRounds n ls ≤ openRounds n ls') (n : Nat) :
    openRounds n (ks ++ ls) ≤ openRounds n (ks' ++ ls') := by
  rw [openRounds_append, openRounds_append]
  exact Nat.le_trans (openRounds_mono (h n) ls) (h' _)

theorem openRounds_nested (h : Nested ks) (n : Nat) : openRounds n ks = n := by
  induction h generalizing n with
  | nil => rfl
  | plain hk _ ih => rw [openRounds_cons, Kind.roundsBehind_plain hk, ih]
  | pair hk hl _ _ ih ih' =>
    rw [openRounds_append, openRounds_cons n, ih, openRounds_cons, Kind.roundsBehind_pair hk hl, ih']

/-- What closes one bracket leaves as many open as the bracket itself. -/
theorem openRounds_closing (hl : l.closed? = some b) (h : nest [b] ks = some []) (n : Nat) :
    openRounds n ks = openRounds n [l] := by
  cases unwinds_of_nest h with
  | cons hks hl' hrest =>
    cases hrest with
    | nil hls =>
      rw [openRounds_append, openRounds_nested hks, openRounds_cons, openRounds_nested hls,
        Kind.roundsBehind_closed hl', ← Kind.roundsBehind_closed hl]
      rfl

/-- A word of a closing bracket, or an empty one. -/
def ClosesOne (ks : List Kind) : Prop := ks = [] ∨ ∃ l b, ks = [l] ∧ l.closed? = some b

theorem ClosesOne.openRounds_eq (h : ClosesOne ls) (he : ∀ st, nest st ks = nest st ls) (n : Nat) :
    openRounds n ks = openRounds n ls := by
  rcases h with rfl | ⟨l, b, rfl, hl⟩
  · exact openRounds_nested (nested_of_nest (he [])) n
  · have hopen : l.opened? = none := by
      unfold Kind.closed? at hl
      split at hl <;> first | rfl | cases hl
    refine openRounds_closing hl ?_ n
    rw [he, nest, nestOne, hopen, hl]
    simp

end Rounds

/-! ## Words of parts -/

theorem ExprPart.closesOne (p : ExprPart) : ClosesOne (Step.expr p).brackets := by
  cases p <;> first | exact .inl rfl | exact .inr ⟨_, _, rfl, rfl⟩

theorem StmtPart.closesOne (p : StmtPart) : ClosesOne (Step.stmt p).brackets := by
  cases p <;> first | exact .inl rfl | exact .inr ⟨_, _, rfl, rfl⟩

theorem DeclPart.closesOne (p : DeclPart) : ClosesOne (Step.decl p).brackets := by
  cases p <;> first | exact .inl rfl | exact .inr ⟨_, _, rfl, rfl⟩

/-- The steps that a part leads to leave as many open as the part. -/
theorem Turns.openRounds_eq {v : Lookahead} {s : Step} {ss : List Step} (h : Turns v s ss)
    (hs : ClosesOne s.brackets) (n : Nat) :
    openRounds n (v.bracketsOf ss) = openRounds n s.brackets :=
  hs.openRounds_eq h.nest_eq n

/-! ## Leaves of searches -/

/-- A place among the children of a search. -/
inductive SearchPlace where
  /-- In front of the word that a search starts with. -/
  | word
  /-- In front of the term. -/
  | term
  /-- Between the braces of the term. -/
  | braces
  /-- Behind the term. -/
  | tail

namespace Tree

/-- The kind of a token that was matched. -/
def kind? : Tree → Option Kind
  | token t => some t.kind
  | _ => none

mutual

/-- The kinds of the leaves of a tree, apart from those that stand between the braces of the
term of a search. -/
def exposed : Tree → List Kind
  | node r ts => exposedFrom (if r = .soslQuery then .word else .tail) ts
  | token t => [t.kind]
  | skipped t => [t.kind]

/-- The same for the children of a node, from a place on. -/
def exposedFrom : SearchPlace → List Tree → List Kind
  | _, [] => []
  | .word, t :: ts => exposed t ++ exposedFrom .term ts
  | .term, t :: ts =>
    exposed t ++ exposedFrom (if t.kind? = some (.mark .lBrace) then .braces else .tail) ts
  | .braces, t :: ts =>
    if t.kind? = some (.mark .rBrace) then exposed t ++ exposedFrom .tail ts
    else exposedFrom .braces ts
  | .tail, t :: ts => exposed t ++ exposedFrom .tail ts

end

/-- The kinds of the leaves of some trees, apart from those between the braces of terms. -/
def exposedAll (ts : List Tree) : List Kind := ts.flatMap exposed

@[simp] theorem exposedAll_nil : exposedAll [] = [] := rfl

@[simp] theorem exposedAll_cons (t : Tree) (ts : List Tree) :
    exposedAll (t :: ts) = t.exposed ++ exposedAll ts := rfl

@[simp] theorem exposedAll_append (ts us : List Tree) :
    exposedAll (ts ++ us) = exposedAll ts ++ exposedAll us := List.flatMap_append

@[simp] theorem exposed_token (t : Token) : (token t).exposed = [t.kind] := by
  rw [exposed]

@[simp] theorem exposedFrom_tail (ts : List Tree) : exposedFrom .tail ts = exposedAll ts := by
  induction ts with
  | nil => rw [exposedFrom]; rfl
  | cons t ts ih => rw [exposedFrom, ih]; rfl

theorem exposed_node {r : Rule} (h : r ≠ .soslQuery) (ts : List Tree) :
    (node r ts).exposed = exposedAll ts := by
  rw [exposed, if_neg h, exposedFrom_tail]

/-- The term of a search is not written between braces. -/
def PlainTerm (r : Rule) (ts : List Tree) : Prop :=
  r = .soslQuery → ts[1]?.bind kind? ≠ some (.mark .lBrace)

theorem exposed_of_plainTerm {r : Rule} {ts : List Tree} (h : PlainTerm r ts) :
    (node r ts).exposed = exposedAll ts := by
  by_cases hr : r = .soslQuery
  · rw [exposed, if_pos hr]
    rcases ts with _ | ⟨t, _ | ⟨u, us⟩⟩
    · rw [exposedFrom]
      rfl
    · simp [exposedFrom]
    · have hu : u.kind? ≠ some (.mark .lBrace) := h hr
      rw [exposedFrom, exposedFrom, if_neg hu, exposedFrom_tail]
      rfl
  · exact exposed_node hr ts

/-- Where no term is written between braces, these are the kinds of all leaves. -/
theorem exposed_eq_leaves {t : Tree} (h : t.Everywhere PlainTerm) :
    t.exposed = t.leaves.map (·.token.kind) := by
  induction h with
  | node hr _ ih =>
    rw [exposed_of_plainTerm hr, leaves_node, List.map_flatMap]
    simp only [exposedAll, List.flatMap_def, List.map_congr_left ih]
  | token t => simp
  | skipped t => rw [exposed]; rfl

/-- What holds of every node holds of those that come from a rule. -/
theorem Everywhere.of_mem_findAll {law : Rule → List Tree → Prop} {t u : Tree} {r : Rule}
    (h : t.Everywhere law) (hu : u ∈ t.findAll r) : ∃ ts, u = .node r ts ∧ law r ts := by
  induction h with
  | @node r' ts hr _ ih =>
    rw [findAll_node, List.mem_append, List.mem_flatMap] at hu
    rcases hu with hu | ⟨t, ht, hu⟩
    · split at hu
      · rename_i heq
        subst heq
        exact ⟨ts, List.mem_singleton.1 hu, hr⟩
      · cases hu
    · exact ih t ht hu
  | token | skipped => cases hu

end Tree

open ApexSyntax.Tree

/-- A search leaves no parenthesis open. -/
def NoneOpen (r : Rule) (ts : List Tree) : Prop :=
  r = .soslQuery → openRounds 0 (Tree.node r ts).exposed = 0

/-- All searches in the trees leave no parenthesis open. -/
def NoneOpenIn (ts : List Tree) : Prop := ∀ t ∈ ts, t.Everywhere NoneOpen

theorem noneOpenIn_nil : NoneOpenIn [] := fun _ hm => absurd hm List.not_mem_nil

theorem NoneOpenIn.append {ts us : List Tree} (h : NoneOpenIn ts) (h' : NoneOpenIn us) :
    NoneOpenIn (ts ++ us) := List.forall_mem_append.2 ⟨h, h'⟩

theorem noneOpenIn_token (t : Token) : NoneOpenIn [.token t] :=
  List.forall_mem_singleton.2 (.token t)

theorem noneOpenIn_node {r : Rule} {ts : List Tree} (h : NoneOpen r ts) (hts : NoneOpenIn ts) :
    NoneOpenIn [.node r ts] := List.forall_mem_singleton.2 (.node h hts)

theorem noneOpen_of_ne {r : Rule} (h : r ≠ .soslQuery) (ts : List Tree) : NoneOpen r ts :=
  fun he => absurd he h

end ApexSyntax
