-- What a terminal shows of a text: all of it but control sequences. Colours are nothing but such
-- sequences, so what is printed for people shows the same with colours and without them.
import ApexSyntax.Proofs.Text.Lines
import ApexSyntax.Report

namespace ApexSyntax

/-! ## Control sequences -/

/-- What a terminal is in the middle of. -/
inductive Terminal where
  | text
  /-- The escape character has come, and not what it opens. -/
  | escape
  /-- In a control sequence, up to the first character from `@` to `~`. -/
  | control
  deriving DecidableEq, Repr

namespace Terminal

def next : Terminal → Char → Terminal
  | text, c => if c = '\x1b' then escape else text
  | escape, c => if c = '[' then control else text
  | control, c => if '@' ≤ c ∧ c ≤ '~' then text else control

def after (t : Terminal) (cs : List Char) : Terminal := cs.foldl next t

/-- The characters that are shown: those that neither open a sequence nor belong to one. -/
def shown : Terminal → List Char → List Char
  | _, [] => []
  | t, c :: cs => (if t = text ∧ t.next c = text then [c] else []) ++ shown (t.next c) cs

theorem shown_append (t : Terminal) (as bs : List Char) :
    t.shown (as ++ bs) = t.shown as ++ (t.after as).shown bs := by
  induction as generalizing t with
  | nil => rfl
  | cons a as ih =>
    rw [List.cons_append, shown, shown, ih, List.append_assoc]
    rfl

theorem after_append (t : Terminal) (as bs : List Char) :
    t.after (as ++ bs) = (t.after as).after bs := List.foldl_append

/-- A text without escape characters leaves the terminal in a text, and is shown as it is. -/
theorem after_shown_eq {cs : List Char} (h : '\x1b' ∉ cs) :
    after text cs = text ∧ shown text cs = cs := by
  induction cs with
  | nil => exact ⟨rfl, rfl⟩
  | cons c cs ih =>
    have hnext : next text c = text := if_neg (Ne.symm (List.ne_of_not_mem_cons h))
    obtain ⟨hafter, hshown⟩ := ih (List.not_mem_of_not_mem_cons h)
    rw [after, List.foldl_cons, shown, hnext, hshown]
    exact ⟨hafter, rfl⟩

end Terminal

open Terminal

/-- The text without its control sequences. -/
def Text.withoutSequences (text : String) : String := String.ofList (shown .text text.toList)

/-! ## Painted texts -/

/-- Apart from whole control sequences, `painted` is `plain`. -/
structure Shows (painted plain : String) : Prop where
  after_eq : after .text painted.toList = .text
  shown_eq : shown .text painted.toList = plain.toList

namespace Shows

variable {a a' b b' : String}

theorem refl (h : '\x1b' ∉ a.toList) : Shows a a :=
  ⟨(after_shown_eq h).1, (after_shown_eq h).2⟩

theorem append (ha : Shows a a') (hb : Shows b b') : Shows (a ++ b) (a' ++ b') where
  after_eq := by rw [String.toList_append, after_append, ha.after_eq, hb.after_eq]
  shown_eq := by
    rw [String.toList_append, shown_append, ha.after_eq, ha.shown_eq, hb.shown_eq,
      String.toList_append]

theorem on (s : Style) : Shows s.on "" := by
  cases s <;> exact ⟨by decide +kernel, by decide +kernel⟩

theorem off (s : Style) : Shows s.off "" := by
  cases s <;> exact ⟨by decide +kernel, by decide +kernel⟩

theorem paint (s : Style) (h : Shows a b) : Shows (s.paint true a) (s.paint false b) := by
  simpa [Style.paint] using ((on s).append h).append (off s)

theorem join {α : Type} {xs : List α} {f g : α → String} (h : ∀ x ∈ xs, Shows (f x) (g x)) :
    Shows (String.join (xs.map f)) (String.join (xs.map g)) := by
  induction xs with
  | nil => exact refl (by simp)
  | cons x xs ih =>
    obtain ⟨hx, hxs⟩ := List.forall_mem_cons.1 h
    rw [List.map_cons, List.map_cons, String.join_cons, String.join_cons]
    exact hx.append (ih hxs)

theorem withoutSequences_eq (h : Shows a b) : Text.withoutSequences a = b := by
  rw [Text.withoutSequences, h.shown_eq, String.ofList_toList]

end Shows

/-! ## Lines for people -/

/-- The texts of a result that are printed for people. -/
def PackageResult.texts (r : PackageResult) : List String :=
  r.name :: r.path :: r.package.toList ++ r.errors.flatMap fun d => [d.message, d.path]

/-- None of the texts of a result that are printed for people has the character. -/
def PackageResult.Lacks (r : PackageResult) (c : Char) : Prop := ∀ text ∈ r.texts, c ∉ text.toList

instance (r : PackageResult) (c : Char) : Decidable (r.Lacks c) :=
  inferInstanceAs (Decidable (∀ text ∈ r.texts, c ∉ text.toList))

theorem PackageResult.lacks_iff {r : PackageResult} {c : Char} :
    r.Lacks c ↔ c ∉ r.name.toList ∧ c ∉ r.path.toList ∧ (∀ p ∈ r.package, c ∉ p.toList) ∧
      ∀ d ∈ r.errors, c ∉ d.message.toList ∧ c ∉ d.path.toList := by
  simp only [Lacks, texts, List.cons_append, List.forall_mem_cons, List.forall_mem_append,
    Option.mem_toList, Option.mem_def, List.forall_mem_flatMap, List.not_mem_nil, false_implies,
    implies_true, and_true]

namespace Report

variable {c : Char} {r : PackageResult} {d : Diagnostic} {results : List PackageResult}

/-- No character of the text is below the blank. -/
def isPrintable (text : String) : Bool := text.toList.all (' ' ≤ ·)

theorem not_mem_of_isPrintable {text : String} (h : isPrintable text = true) (hc : c < ' ') :
    c ∉ text.toList := by
  intro hmem
  have hle : ' ' ≤ c := of_decide_eq_true (List.all_eq_true.1 h c hmem)
  exact absurd (Std.lt_of_le_of_lt hle hc) (by decide)

theorem not_mem_location (hc : c < ' ') (h : r.Lacks c) (hd : d ∈ r.errors) :
    c ∉ (r.location d).toList := by
  obtain ⟨-, hpath, -, herrors⟩ := PackageResult.lacks_iff.1 h
  have hcolon : c ∉ ":".toList := not_mem_of_isPrintable (by decide +kernel) hc
  have hslash : c ∉ "/".toList := not_mem_of_isPrintable (by decide +kernel) hc
  rw [PackageResult.location]
  split <;>
    simp only [String.toList_append, List.mem_append, hpath, (herrors d hd).2,
      Text.not_mem_natural hc, hcolon, hslash, or_self, not_false_eq_true]

theorem not_mem_errorLine (hc : c < ' ') (h : r.Lacks c) (hd : d ∈ r.errors) :
    c ∉ (errorLine false r d).toList := by
  obtain ⟨-, -, -, herrors⟩ := PackageResult.lacks_iff.1 h
  have hcross : c ∉ "✖".toList := not_mem_of_isPrintable (by decide +kernel) hc
  have hblank : c ∉ " ".toList := not_mem_of_isPrintable (by decide +kernel) hc
  have herror : c ∉ "⟦error⟧".toList := not_mem_of_isPrintable (by decide +kernel) hc
  have hdash : c ∉ " — ".toList := not_mem_of_isPrintable (by decide +kernel) hc
  simp only [errorLine, Style.paint, Bool.false_eq_true, if_false, String.toList_append,
    List.mem_append, not_mem_location hc h hd, (herrors d hd).1, hcross, hblank, herror, hdash,
    or_self, not_false_eq_true]

theorem not_mem_scope (hc : c < ' ') (h : r.Lacks c) : c ∉ (scope r).toList := by
  obtain ⟨hname, -, hpackage, -⟩ := PackageResult.lacks_iff.1 h
  have hopen : c ∉ "[".toList := not_mem_of_isPrintable (by decide +kernel) hc
  have hclose : c ∉ "]".toList := not_mem_of_isPrintable (by decide +kernel) hc
  have hblank : c ∉ " ".toList := not_mem_of_isPrintable (by decide +kernel) hc
  have hrest : c ∉ ((r.package.map (" " ++ ·)).getD "").toList := by
    cases hp : r.package with
    | none => simp
    | some p =>
      rw [Option.map_some, Option.getD_some, String.toList_append, List.mem_append, not_or]
      exact ⟨hblank, hpackage p hp⟩
  simp only [scope, String.toList_append, List.mem_append, hname, hopen, hclose, hrest, or_self,
    not_false_eq_true]

theorem not_mem_resultLine (hc : c < ' ') (h : r.Lacks c) : c ∉ (resultLine false r).toList := by
  have hdash : c ∉ "— ".toList := not_mem_of_isPrintable (by decide +kernel) hc
  have hstatus : c ∉ " — status=".toList := not_mem_of_isPrintable (by decide +kernel) hc
  have hlabel : c ∉ r.status.label.toList :=
    not_mem_of_isPrintable (by cases r.status <;> decide +kernel) hc
  have herrors : c ∉ " errors=".toList := not_mem_of_isPrintable (by decide +kernel) hc
  simp only [resultLine, Style.paint, Bool.false_eq_true, if_false, String.toList_append,
    List.mem_append, not_mem_scope hc h, Text.not_mem_natural hc, hdash, hstatus, hlabel, herrors,
    or_self, not_false_eq_true]

/-! ## Coloured lines -/

theorem shows_errorLine (h : r.Lacks '\x1b') (hd : d ∈ r.errors) :
    Shows (errorLine true r d) (errorLine false r d) := by
  obtain ⟨-, -, -, herrors⟩ := PackageResult.lacks_iff.1 h
  have hword : ∀ word, isPrintable word = true → Shows word word :=
    fun _ hword => .refl (not_mem_of_isPrintable hword (by decide))
  have hcross := (hword "✖" (by decide +kernel)).paint .red
  have hmark := ((hword "⟦error⟧" (by decide +kernel)).paint .red).paint .bold
  have hlocation := (Shows.refl (not_mem_location (by decide) h hd)).paint .bold
  have hmessage := Shows.refl (herrors d hd).1
  have hblank := hword " " (by decide +kernel)
  have hdash := hword " — " (by decide +kernel)
  exact (((((hcross.append hblank).append hmark).append hblank).append hlocation).append
    hdash).append hmessage

theorem shows_resultLine (h : r.Lacks '\x1b') :
    Shows (resultLine true r) (resultLine false r) :=
  ((Shows.refl (not_mem_resultLine (by decide) h)).paint (style r)).paint .bold

/-- The lines for people say the same with colours and without them. -/
theorem shows_human (h : ∀ r ∈ results, r.Lacks '\x1b') :
    Shows (human true results) (human false results) := by
  have hbreak : Shows "\n" "\n" := .refl (by decide +kernel)
  induction results with
  | nil => exact .refl (by simp [human])
  | cons r rest ih =>
    obtain ⟨hr, hrest⟩ := List.forall_mem_cons.1 h
    have herrors : Shows (String.join ((r.errors.map (errorLine true r)).map (· ++ "\n")))
        (String.join ((r.errors.map (errorLine false r)).map (· ++ "\n"))) := by
      rw [List.map_map, List.map_map]
      exact .join fun d hd => (shows_errorLine hr hd).append hbreak
    rw [human_cons, human_cons]
    exact herrors.append (((shows_resultLine hr).append hbreak).append (ih hrest))

end Report

end ApexSyntax
