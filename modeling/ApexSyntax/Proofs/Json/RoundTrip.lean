-- Reading back what is written on one line. Every string, every natural number and every tree
-- of them is read as it was written, whatever stands behind it.
import ApexSyntax.Json.Read
import ApexSyntax.Proofs.Text.Lines

namespace ApexSyntax.Json

open Text

/-! ## Strings -/

/-- How a character may stand inside a string. -/
theorem quotedChar_cases {P : List Char → Prop} (c : Char)
    (short : ∀ e, e ≠ 'u' → shortEscape? e = some c → P ['\\', e])
    (hex : c.toNat < 0x20 →
      P ['\\', 'u', '0', '0', hexDigit (c.toNat / 16), hexDigit (c.toNat % 16)])
    (plain : ¬c.toNat < 0x20 → c ≠ '"' → c ≠ '\\' → P [c]) : P (quotedChar c) := by
  have hshort : ∀ (d e : Char) {rest : List Char}, e ≠ 'u' → shortEscape? e = some d →
      (c ≠ d → P rest) → P (if c = d then ['\\', e] else rest) := fun d e _ hu he hrest =>
    iteInduction (fun h => short e hu (h ▸ he)) hrest
  exact hshort '"' '"' (by decide) rfl fun hquote => hshort '\\' '\\' (by decide) rfl fun hslash =>
    hshort '\n' 'n' (by decide) rfl fun _ => hshort '\r' 'r' (by decide) rfl fun _ =>
    hshort '\t' 't' (by decide) rfl fun _ => hshort '\x08' 'b' (by decide) rfl fun _ =>
    hshort '\x0c' 'f' (by decide) rfl fun _ => iteInduction hex fun h => plain h hquote hslash

theorem hexValues?_hexDigit : ∀ n < 0x20,
    hexValues? ['0', '0', hexDigit (n / 16), hexDigit (n % 16)] = some n := by
  decide +kernel

theorem Piece.ofNat_toNat {c : Char} (h : c.toNat < 0x20) : Piece.ofNat c.toNat = .char c := by
  rw [Piece.ofNat, if_neg (by omega), Char.ofNat_toNat]

/-- A character is read as it was written. -/
theorem readPieces_quotedChar (c : Char) {cs rest : List Char} {ps : List Piece}
    (h : readPieces cs = some (ps, rest)) :
    readPieces (quotedChar c ++ cs) = some (.char c :: ps, rest) := by
  refine quotedChar_cases (P := fun q => readPieces (q ++ cs) = some (.char c :: ps, rest)) c
    (fun e hu he => ?_) (fun hlow => ?_) fun hlow hquote hslash => ?_
  · simp [readPieces, hu, he, h]
  · simp [readPieces, hexValues?_hexDigit _ hlow, Piece.ofNat_toNat hlow, h]
  · simp [readPieces, hlow, hslash, h]

theorem readPieces_quoted (text rest : List Char) :
    readPieces (text.flatMap quotedChar ++ '"' :: rest) = some (text.map .char, rest) := by
  induction text with
  | nil => simp [readPieces]
  | cons c text ih =>
    rw [List.flatMap_cons, List.append_assoc]
    exact readPieces_quotedChar c ih

theorem text?_chars (text : String) : text? (text.toList.map .char) = some text := by
  have hchars : ∀ cs : List Char, characters? (cs.map .char) = some cs := by
    intro cs
    induction cs with
    | nil => rfl
    | cons c cs ih => rw [List.map_cons, characters?, ih]; rfl
  rw [text?, hchars, Option.map_some, String.ofList_toList]

theorem toList_quote (text : String) :
    (quote text).toList = '"' :: (text.toList.flatMap quotedChar ++ ['"']) := by
  rw [quote, String.toList_ofList, List.cons_append]

theorem isLayout_of_shortEscape? {c e : Char} (h : shortEscape? e = some c) :
    isLayout e = false := by
  unfold shortEscape? at h
  split at h <;> first | rfl | cases h

theorem isLayout_of_le {c : Char} (h : ¬c.toNat < 0x20) : isLayout c = false := by
  simp only [isLayout, Bool.or_eq_false_iff, beq_eq_false_iff_ne]
  refine ⟨⟨?_, ?_⟩, ?_⟩ <;> rintro rfl <;> exact h (by decide)

/-- A quoted text has no line break: each is escaped. -/
theorem isOneLine_quote (text : String) : isOneLine (quote text) = true := by
  have hdigit : ∀ n < 0x20, isLayout (hexDigit (n / 16)) = false ∧
      isLayout (hexDigit (n % 16)) = false := by decide +kernel
  have hchar : ∀ c, (quotedChar c).all (!isLayout ·) = true := by
    intro c
    refine quotedChar_cases (P := fun q => q.all (!isLayout ·) = true) c ?_ ?_ ?_
    · rintro e - he
      simp only [List.all_cons, isLayout_of_shortEscape? he]
      rfl
    · intro hlow
      obtain ⟨hfirst, hsecond⟩ := hdigit _ hlow
      simp only [List.all_cons, hfirst, hsecond]
      rfl
    · intro hlow _ _
      simp only [List.all_cons, isLayout_of_le hlow]
      rfl
  rw [isOneLine, toList_quote, List.all_cons, List.all_append, List.all_flatMap,
    List.all_eq_true.2 fun c _ => hchar c]
  rfl

/-! ## Numbers -/

/-- The text goes on with something that belongs to no number. -/
def EndsNumber (rest : List Char) : Prop :=
  ∀ c ∈ rest.head?, isDigit c = false ∧ c ≠ '.' ∧ c ≠ 'e' ∧ c ≠ 'E'

theorem isDigit_of_mem_toDigits {n : Nat} {c : Char} (h : c ∈ Nat.toDigits 10 n) :
    isDigit c = true := by
  have hc : c.isDigit = true := Nat.isDigit_of_mem_toDigits (by decide) (by decide) h
  simpa [isDigit, Char.isDigit, Char.le_def] using hc

theorem exists_toDigits (n : Nat) : ∃ d ds, Nat.toDigits 10 n = d :: ds ∧ isDigit d = true := by
  obtain ⟨d, ds, hds⟩ := List.exists_cons_of_ne_nil (Nat.toDigits_ne_nil (n := n) (b := 10))
  exact ⟨d, ds, hds, isDigit_of_mem_toDigits (n := n) (hds ▸ List.mem_cons_self)⟩

/-- Only zero is written with a zero in front. -/
theorem head?_toDigits {n : Nat} (h : 0 < n) : (Nat.toDigits 10 n).head? ≠ some '0' := by
  induction n using Nat.strongRecOn with
  | ind n ih =>
    by_cases hn : n < 10
    · rw [Nat.toDigits_of_lt_base hn]
      have hdigit : ∀ n < (10 : Nat), 0 < n → n.digitChar ≠ '0' := by decide
      simpa using hdigit n hn h
    · have hfront := ih (n / 10) (by omega) (by omega)
      obtain ⟨d, ds, hds, -⟩ := exists_toDigits (n / 10)
      rw [hds] at hfront
      rw [Nat.toDigits_of_base_le (by decide) (by omega), hds]
      exact hfront

theorem readDigits_append {ds rest : List Char} (hne : ds ≠ []) (hd : ∀ c ∈ ds, isDigit c = true)
    (hrest : EndsNumber rest) : readDigits (ds ++ rest) = some (ds, rest) := by
  have hstop : rest.takeWhile isDigit = [] ∧ rest.dropWhile isDigit = rest := by
    cases rest with
    | nil => exact ⟨rfl, rfl⟩
    | cons c rest =>
      have hc : isDigit c = false := (hrest c rfl).1
      simp [hc]
  unfold readDigits
  rw [List.takeWhile_append_of_pos hd, List.dropWhile_append_of_pos hd, hstop.1, hstop.2,
    List.append_nil]
  cases ds with
  | nil => exact absurd rfl hne
  | cons d ds => rfl

theorem readWhole_toDigits (n : Nat) {rest : List Char} (hrest : EndsNumber rest) :
    readWhole (Nat.toDigits 10 n ++ rest) = some (Nat.toDigits 10 n, rest) := by
  rcases Nat.eq_zero_or_pos n with rfl | hn
  · rw [Nat.toDigits_zero, List.singleton_append, readWhole, if_neg]
    cases rest with
    | nil => simp
    | cons c rest => simpa using (hrest c rfl).1
  · obtain ⟨d, ds, hds, -⟩ := exists_toDigits n
    have hhead := head?_toDigits hn
    have hdigits := readDigits_append (Nat.toDigits_ne_nil (n := n) (b := 10))
      (fun c hc => isDigit_of_mem_toDigits hc) hrest
    rw [hds] at hhead hdigits ⊢
    rw [← hdigits, List.cons_append, readWhole]
    rintro _ hzero
    cases hzero
    exact hhead rfl

theorem readSign_toDigits (n : Nat) (rest : List Char) :
    readSign (· == '-') (Nat.toDigits 10 n ++ rest) = ([], Nat.toDigits 10 n ++ rest) := by
  obtain ⟨d, ds, hds, hd⟩ := exists_toDigits n
  have hsign : ¬(d == '-') = true := by
    rw [beq_iff_eq]
    rintro rfl
    cases hd
  rw [hds, List.cons_append, readSign, if_neg hsign]

theorem readFraction_none {rest : List Char} (hrest : EndsNumber rest) :
    readFraction rest = some ([], rest) := by
  cases rest with
  | nil => rfl
  | cons c rest =>
    rw [readFraction]
    rintro _ hdot
    exact (hrest c rfl).2.1 (List.cons.inj hdot).1

theorem readExponent_none {rest : List Char} (hrest : EndsNumber rest) :
    readExponent rest = some ([], rest) := by
  cases rest with
  | nil => rfl
  | cons c rest =>
    obtain ⟨-, -, he, hE⟩ := hrest c rfl
    rw [readExponent, if_neg (by simp [he, hE])]

/-- A natural number is read as it was written. -/
theorem readNumber_natural (n : Nat) {rest : List Char} (hrest : EndsNumber rest) :
    readNumber ((toString n).toList ++ rest) = some (ofNat n, rest) := by
  simp [readNumber, readSign_toDigits, readWhole_toDigits n hrest, readFraction_none hrest,
    readExponent_none hrest, ofNat, Nat.repr_eq_ofList_toDigits]

/-! ## Values -/

/-- All numbers of the value are natural, and all its strings are texts. -/
inductive Plain : Json → Prop
  | null : Plain null
  | bool (b : Bool) : Plain (bool b)
  | number (n : Nat) : Plain (ofNat n)
  | string (text : String) : Plain (string text)
  | array {items : List Json} : (∀ item ∈ items, Plain item) → Plain (array items)
  | object {members : List (String × Json)} : (∀ m ∈ members, Plain m.2) → Plain (object members)

/-- What is written of the value stays on one line, and is read as the value wherever it ends. -/
structure Legible (v : Json) : Prop where
  oneLine : isOneLine v.compact = true
  /-- It is not taken for a blank, nor for the end of an array. -/
  start : ∃ c cs, v.compact.toList = c :: cs ∧ isSpace c = false ∧ c ≠ ']'
  /-- Each bracket and comma that takes fuel is a character of its own. -/
  reads : ∀ fuel rest, v.compact.toList.length < fuel → EndsNumber rest →
    readValue fuel (v.compact.toList ++ rest) = some (v, rest)

theorem skipSpace_cons {c : Char} (h : isSpace c = false) (cs : List Char) :
    skipSpace (c :: cs) = c :: cs := by
  rw [skipSpace, List.dropWhile_cons_of_neg (by simp [h])]

theorem endsNumber_cons {c : Char} (cs : List Char)
    (h : isDigit c = false ∧ c ≠ '.' ∧ c ≠ 'e' ∧ c ≠ 'E') : EndsNumber (c :: cs) := by
  intro d hd
  cases hd
  exact h

/-! ## Arrays -/

section Items

variable {item : Json} {items : List Json}

theorem toList_compactItems (item : Json) (items : List Json) :
    (compactItems false (item :: items)).toList =
      ',' :: (item.compact.toList ++ (compactItems false items).toList) := by
  simp [compactItems]

/-- The items of an array are read behind its opening bracket. -/
theorem readItems_compact (h : ∀ i ∈ item :: items, Legible i) (fuel : Nat) (behind : List Char)
    (hfuel : (item.compact.toList ++ (compactItems false items).toList).length + 1 < fuel) :
    readItems fuel (item.compact.toList ++ (compactItems false items).toList ++ ']' :: behind) =
      some (item :: items, behind) := by
  induction items generalizing item fuel with
  | nil =>
    obtain _ | fuel := fuel
    · omega
    have hread := (h item List.mem_cons_self).reads fuel (']' :: behind)
      (by simp [compactItems] at hfuel; omega) (endsNumber_cons _ (by decide))
    simp only [compactItems, String.toList_empty, List.append_nil]
    rw [readItems, hread]
    rfl
  | cons next items ih =>
    obtain _ | fuel := fuel
    · omega
    rw [toList_compactItems] at hfuel ⊢
    simp only [List.length_append, List.length_cons] at hfuel
    have hread := (h item List.mem_cons_self).reads fuel
      (',' :: (next.compact.toList ++ (compactItems false items).toList ++ ']' :: behind))
      (by omega) (endsNumber_cons _ (by decide))
    have hothers : ∀ i ∈ next :: items, Legible i := fun i hi => h i (List.mem_cons_of_mem _ hi)
    have hrest := ih hothers fuel (by simp only [List.length_append]; omega)
    rw [List.append_assoc, List.cons_append, readItems, hread]
    simp only [skipSpace_cons (c := ',') rfl, hrest, Option.map_some]

end Items

/-! ## Objects -/

section Members

variable {key : String} {value : Json} {members : List (String × Json)}

/-- The first member, and the others behind it. -/
def memberText (key : String) (value : Json) (members : List (String × Json)) : List Char :=
  '"' :: (key.toList.flatMap quotedChar ++ '"' :: ':' ::
    (value.compact.toList ++ (compactMembers false members).toList))

theorem toList_compactMembers (key : String) (value : Json) (members : List (String × Json)) :
    (compactMembers true ((key, value) :: members)).toList = memberText key value members ∧
      (compactMembers false ((key, value) :: members)).toList =
        ',' :: memberText key value members := by
  simp [compactMembers, toList_quote, memberText]

/-- The members of an object are read behind its opening brace. -/
theorem readMembers_compact (h : ∀ m ∈ (key, value) :: members, Legible m.2) (fuel : Nat)
    (behind : List Char) (hfuel : (memberText key value members).length < fuel) :
    readMembers fuel (memberText key value members ++ '\x7d' :: behind) =
      some (((key, value) :: members).map fun m => (m.1.toList.map .char, m.2), behind) := by
  induction members generalizing key value fuel with
  | nil =>
    obtain _ | fuel := fuel
    · omega
    have hvalue : Legible value := h (key, value) List.mem_cons_self
    have hread := hvalue.reads fuel ('\x7d' :: behind)
      (by simp [memberText, compactMembers] at hfuel; omega) (endsNumber_cons _ (by decide))
    simp only [memberText, compactMembers, String.toList_empty, List.append_nil,
      List.cons_append, List.append_assoc]
    rw [readMembers]
    simp only [skipSpace_cons (c := '"') rfl, skipSpace_cons (c := ':') rfl,
      skipSpace_cons (c := '\x7d') rfl, readPieces_quoted, hread]
    rfl
  | cons next members ih =>
    obtain ⟨nextKey, nextValue⟩ := next
    obtain _ | fuel := fuel
    · omega
    rw [memberText, (toList_compactMembers nextKey nextValue members).2] at hfuel ⊢
    simp only [List.length_append, List.length_cons] at hfuel
    have hvalue : Legible value := h (key, value) List.mem_cons_self
    have hread := hvalue.reads fuel
      (',' :: (memberText nextKey nextValue members ++ '\x7d' :: behind))
      (by omega) (endsNumber_cons _ (by decide))
    have hothers : ∀ m ∈ (nextKey, nextValue) :: members, Legible m.2 := fun m hm =>
      h m (List.mem_cons_of_mem _ hm)
    have hrest := ih hothers fuel (by omega)
    simp only [List.cons_append, List.append_assoc]
    rw [readMembers]
    simp only [skipSpace_cons (c := '"') rfl, skipSpace_cons (c := ':') rfl,
      skipSpace_cons (c := ',') rfl, readPieces_quoted, hread, hrest, Option.map_some]
    rfl

theorem mapM_members {f : List Piece × Json → Option (String × Json)}
    (hf : ∀ m, f (m.1.toList.map .char, m.2) = some m) (members : List (String × Json)) :
    (members.map fun m => (m.1.toList.map .char, m.2)).mapM f = some members := by
  have hread : f ∘ (fun m => (m.1.toList.map Piece.char, m.2)) = pure := funext hf
  rw [List.mapM_map, hread]
  exact List.mapM_pure.trans (congrArg some members.map_id)

theorem ofMembers_chars (members : List (String × Json)) :
    ofMembers (members.map fun m => (m.1.toList.map .char, m.2)) = object members := by
  rw [ofMembers, mapM_members]
  exact fun m => congrArg (Option.map (·, m.2)) (text?_chars m.1)

end Members

/-! ## All values -/

theorem legible_number (n : Nat) : Legible (ofNat n) := by
  have htext : (ofNat n).compact = toString n := by rw [ofNat, compact]
  obtain ⟨d, ds, hds, hd⟩ := exists_toDigits n
  have hlist : (toString n).toList = d :: ds := by
    rw [Nat.toString_eq_ofList_toDigits, String.toList_ofList, hds]
  have hspace : isSpace d = false := by
    simp only [isSpace, Bool.or_eq_false_iff, beq_eq_false_iff_ne]
    refine ⟨⟨⟨?_, ?_⟩, ?_⟩, ?_⟩ <;> rintro rfl <;> cases hd
  refine ⟨htext ▸ isOneLine_natural n, ⟨d, ds, htext ▸ hlist, hspace, ?_⟩, ?_⟩
  · rintro rfl
    cases hd
  · rintro (_ | fuel) rest hfuel hrest
    · omega
    · have hnumber := readNumber_natural n hrest
      rw [htext]
      rw [hlist] at hnumber ⊢
      rw [List.cons_append] at hnumber ⊢
      rw [readValue, skipSpace_cons hspace]
      split <;> rename_i heq
      all_goals first | exact hnumber | exact absurd ((List.cons.inj heq).1 ▸ hd) (by decide)

theorem legible_string (text : String) : Legible (string text) := by
  have htext : (string text).compact.toList = '"' :: (text.toList.flatMap quotedChar ++ ['"']) := by
    rw [compact, toList_quote]
  refine ⟨?_, ⟨_, _, htext, rfl, by decide⟩, ?_⟩
  · rw [compact]
    exact isOneLine_quote text
  · rintro (_ | fuel) rest hfuel hrest
    · omega
    · rw [htext, List.cons_append, readValue, skipSpace_cons rfl, List.append_assoc,
        List.singleton_append]
      simp only [readPieces_quoted, Option.map_some, ofPieces, text?_chars]

/-- A value that is written as a word is read as it was written. -/
theorem legible_word {v : Json} {c : Char} {cs : List Char} (htext : v.compact.toList = c :: cs)
    (hword : isOneLine v.compact = true ∧ isSpace c = false ∧ c ≠ ']')
    (hread : ∀ fuel rest, readValue (fuel + 1) (c :: cs ++ rest) = some (v, rest)) :
    Legible v := by
  refine ⟨hword.1, ⟨c, cs, htext, hword.2⟩, ?_⟩
  rintro (_ | fuel) rest hfuel -
  · omega
  · rw [htext]
    exact hread fuel rest

theorem isOneLine_compactItems {first : Bool} {items : List Json} (h : ∀ i ∈ items, Legible i) :
    isOneLine (compactItems first items) = true := by
  induction items generalizing first with
  | nil => rfl
  | cons item items ih =>
    obtain ⟨hitem, hitems⟩ := List.forall_mem_cons.1 h
    have hcomma : isOneLine (if first then "" else ",") = true := by
      cases first <;> decide +kernel
    rw [compactItems]
    exact isOneLine_append (isOneLine_append hcomma hitem.oneLine) (ih hitems)

theorem isOneLine_compactMembers {first : Bool} {members : List (String × Json)}
    (h : ∀ m ∈ members, Legible m.2) : isOneLine (compactMembers first members) = true := by
  induction members generalizing first with
  | nil => rfl
  | cons m members ih =>
    obtain ⟨hvalue, hmembers⟩ := List.forall_mem_cons.1 h
    have hcomma : isOneLine (if first then "" else ",") = true := by
      cases first <;> decide +kernel
    have hcolon : isOneLine ":" = true := by decide +kernel
    rw [compactMembers]
    exact isOneLine_append (isOneLine_append (isOneLine_append (isOneLine_append hcomma
      (isOneLine_quote m.1)) hcolon) hvalue.oneLine) (ih hmembers)

theorem legible_array {items : List Json} (h : ∀ i ∈ items, Legible i) :
    Legible (array items) := by
  have htext : (array items).compact.toList =
      '[' :: ((compactItems true items).toList ++ [']']) := by
    simp [compact]
  refine ⟨?_, ⟨_, _, htext, rfl, by decide⟩, ?_⟩
  · rw [compact]
    exact isOneLine_append (isOneLine_append (by decide +kernel) (isOneLine_compactItems h))
      (by decide +kernel)
  · rintro (_ | fuel) rest hfuel -
    · omega
    rw [htext] at hfuel ⊢
    rw [List.cons_append, readValue, skipSpace_cons rfl, List.append_assoc, List.singleton_append]
    cases items with
    | nil => rfl
    | cons item items =>
      obtain ⟨c, cs, hc, hspace, hclose⟩ := (h item List.mem_cons_self).start
      have hitems : (compactItems true (item :: items)).toList =
          item.compact.toList ++ (compactItems false items).toList := by
        simp [compactItems]
      rw [hitems] at hfuel ⊢
      have hread := readItems_compact h fuel rest
        (by simp only [List.length_cons, List.length_append] at hfuel ⊢; omega)
      rw [hc, List.cons_append, List.cons_append] at hread ⊢
      simp only [skipSpace_cons hspace]
      split
      · rename_i heq
        exact absurd (List.cons.inj heq).1 hclose
      · rw [hread]
        rfl

theorem legible_object {members : List (String × Json)} (h : ∀ m ∈ members, Legible m.2) :
    Legible (object members) := by
  have htext : (object members).compact.toList =
      '\x7b' :: ((compactMembers true members).toList ++ ['\x7d']) := by
    simp [compact]
  refine ⟨?_, ⟨_, _, htext, rfl, by decide⟩, ?_⟩
  · rw [compact]
    exact isOneLine_append (isOneLine_append (by decide +kernel) (isOneLine_compactMembers h))
      (by decide +kernel)
  · rintro (_ | fuel) rest hfuel -
    · omega
    rw [htext] at hfuel ⊢
    rw [List.cons_append, readValue, skipSpace_cons rfl, List.append_assoc, List.singleton_append]
    cases members with
    | nil => rfl
    | cons m members =>
      obtain ⟨key, value⟩ := m
      rw [(toList_compactMembers key value members).1] at hfuel ⊢
      have hread := readMembers_compact h fuel rest
        (by simp only [List.length_cons, List.length_append] at hfuel; omega)
      rw [memberText, List.cons_append] at hread ⊢
      simp only [skipSpace_cons (c := '"') rfl]
      split
      · rename_i heq
        cases heq
      · simp only [hread, Option.map_some, ofMembers_chars]

theorem Plain.legible {v : Json} (h : Plain v) : Legible v := by
  induction h with
  | null => exact legible_word rfl (by decide +kernel) fun _ _ => rfl
  | bool b => cases b <;> exact legible_word rfl (by decide +kernel) fun _ _ => rfl
  | number n => exact legible_number n
  | string text => exact legible_string text
  | array _ ih => exact legible_array ih
  | object _ ih => exact legible_object ih

/-- A value is read as it was written. -/
theorem read?_compact {v : Json} (h : Plain v) : read? v.compact = some v := by
  have hread := h.legible.reads (2 * v.compact.toList.length + 2) [] (by omega) nofun
  rw [List.append_nil] at hread
  simp only [read?, hread]
  rfl

end ApexSyntax.Json
