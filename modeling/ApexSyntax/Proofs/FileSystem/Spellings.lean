-- How paths are spelled: what one more part does to the parts and the components of
-- a path, and how a file is spelled as it is seen from a directory above it.
import ApexSyntax.FileSystem.Below

namespace ApexSyntax

/-! ## Parts -/

theorem splitAtSlash_append_slash (cs ds : List Char) :
    splitAtSlash (cs ++ '/' :: ds) = splitAtSlash cs ++ splitAtSlash ds := by
  induction cs with
  | nil => simp [splitAtSlash]
  | cons c cs ih =>
    by_cases hc : c = '/'
    · simp [splitAtSlash, hc, ih]
    · cases hs : splitAtSlash cs with
      | nil => exact absurd hs (splitAtSlash_ne_nil cs)
      | cons part parts => simp [splitAtSlash, hc, ih, hs]

theorem slash_notMem_of_mem_splitAtSlash {cs part : List Char} (h : part ∈ splitAtSlash cs) :
    '/' ∉ part ∧ ∀ c ∈ part, c ∈ cs := by
  induction cs generalizing part with
  | nil =>
    simp only [splitAtSlash, List.mem_singleton] at h
    simp [h]
  | cons c cs ih =>
    by_cases hc : c = '/'
    · simp only [splitAtSlash, hc, if_true, List.mem_cons] at h
      rcases h with rfl | h
      · simp
      · exact ⟨(ih h).1, fun d hd => List.mem_cons_of_mem _ ((ih h).2 d hd)⟩
    · cases hs : splitAtSlash cs with
      | nil => exact absurd hs (splitAtSlash_ne_nil cs)
      | cons first parts =>
        simp only [splitAtSlash, hc, if_false, hs, List.mem_cons] at h
        rcases h with rfl | h
        · obtain ⟨hslash, hsub⟩ := ih (hs ▸ List.mem_cons_self)
          refine ⟨by simp [hslash, Ne.symm hc], fun d hd => ?_⟩
          rcases List.mem_cons.1 hd with rfl | hd
          · exact List.mem_cons_self
          · exact List.mem_cons_of_mem _ (hsub d hd)
        · obtain ⟨hslash, hsub⟩ := ih (hs ▸ List.mem_cons_of_mem _ h)
          exact ⟨hslash, fun d hd => List.mem_cons_of_mem _ (hsub d hd)⟩

/-- A text that can be one part of a path. -/
structure IsPart (part : String) : Prop where
  no_slash : '/' ∉ part.toList
  no_nul : '\x00' ∉ part.toList

namespace IsPart

variable {part : String}

theorem head?_ne_slash (h : IsPart part) : part.toList.head? ≠ some '/' := fun hhead =>
  h.no_slash (List.mem_of_head? hhead)

theorem getLast?_ne_slash (h : IsPart part) : part.toList.getLast? ≠ some '/' := fun hlast =>
  h.no_slash (List.mem_of_getLast? hlast)

end IsPart

/-- A name that can stand in a directory: a part of a path that is neither empty nor one
of the dots, and not too long. -/
structure IsEntryName (name : String) : Prop extends IsPart name where
  ne_empty : name ≠ ""
  ne_here : name ≠ "."
  ne_up : name ≠ ".."
  short : name.utf8ByteSize ≤ FileSystem.maxNameSize

theorem isEntryName_iff {name : String} : IsEntryName name ↔
    ('/' ∉ name.toList ∧ '\x00' ∉ name.toList) ∧ name ≠ "" ∧ name ≠ "." ∧ name ≠ ".." ∧
      name.utf8ByteSize ≤ FileSystem.maxNameSize :=
  ⟨fun h => ⟨⟨h.no_slash, h.no_nul⟩, h.ne_empty, h.ne_here, h.ne_up, h.short⟩,
    fun h => ⟨⟨h.1.1, h.1.2⟩, h.2.1, h.2.2.1, h.2.2.2.1, h.2.2.2.2⟩⟩

instance (name : String) : Decidable (IsEntryName name) := decidable_of_iff _ isEntryName_iff.symm

namespace Path

variable {p base : Path} {part : String} {names : List String}

theorem parts_ne_nil (p : Path) : p.parts ≠ [] := by
  simp [parts, splitAtSlash_ne_nil]

theorem isPart_of_mem_parts (hp : '\x00' ∉ p.text.toList) (h : part ∈ p.parts) : IsPart part := by
  obtain ⟨cs, hcs, rfl⟩ := List.mem_map.1 h
  obtain ⟨hslash, hsub⟩ := slash_notMem_of_mem_splitAtSlash hcs
  exact ⟨by simpa using hslash, fun hnul => hp (hsub _ (by simpa using hnul))⟩

theorem parts_of_isPart (h : IsPart part) : (Path.mk part).parts = [part] := by
  simp [parts, splitAtSlash_of_not_mem h.no_slash]

theorem isAbsolute_of_isPart (h : IsPart part) : (Path.mk part).isAbsolute = false := by
  simp only [isAbsolute, decide_eq_false_iff_not]
  exact h.head?_ne_slash

/-- An empty part leads the empty path and those that start at the top. -/
theorem head?_parts (h : p.parts.head? = some "") : p.text = "" ∨ p.isAbsolute = true := by
  unfold parts at h
  unfold isAbsolute
  cases hcs : p.text.toList with
  | nil => exact Or.inl (by simpa using hcs)
  | cons c cs =>
    by_cases hc : c = '/'
    · simp [hc]
    · cases hs : splitAtSlash cs with
      | nil => exact absurd hs (splitAtSlash_ne_nil cs)
      | cons first rest => simp [hcs, splitAtSlash, hc, hs] at h

/-! ## Components -/

/-- The component that a path can have at its front only. -/
def lead (p : Path) : List Component :=
  if p.isAbsolute then [.root] else if p.parts.head? = some "." then [.here] else []

theorem components_eq (p : Path) : p.components = p.lead ++ p.parts.filterMap component? := by
  unfold components lead
  split
  · rfl
  · split <;> rfl

theorem component?_eq_name (h : IsEntryName part) : component? part = some (.name part) := by
  simp [component?, h.ne_empty, h.ne_here, h.ne_up]

theorem component?_ordinary {c : Component} (h : component? part = some c) :
    c ≠ .root ∧ c ≠ .here := by
  unfold component? at h
  split at h
  · cases h
  · split at h <;> cases h <;> simp

/-- A dot for the directory itself stands at the front of a path that starts with it. -/
theorem here_mem_components_iff :
    .here ∈ p.components ↔ p.isAbsolute = false ∧ p.parts.head? = some "." := by
  have hback : .here ∉ p.parts.filterMap component? := by
    rw [List.mem_filterMap]
    rintro ⟨part, -, hpart⟩
    exact (component?_ordinary hpart).2 rfl
  rw [components_eq, List.mem_append, or_iff_left hback]
  by_cases habs : p.isAbsolute <;> by_cases hdot : p.parts.head? = some "." <;>
    simp [lead, habs, hdot]

theorem isAbsolute_iff : p.isAbsolute = true ↔ p.components.head? = some .root := by
  rw [components_eq]
  constructor
  · intro h
    simp [lead, h]
  · intro h
    cases habs : p.isAbsolute with
    | true => rfl
    | false =>
      have hlead : .root ∉ p.lead := by
        simp only [lead, habs, Bool.false_eq_true, if_false]
        split <;> simp
      rcases List.mem_append.1 (List.mem_of_head? h) with h | h
      · exact absurd h hlead
      · obtain ⟨part, -, hpart⟩ := List.mem_filterMap.1 h
        exact absurd rfl (component?_ordinary hpart).1

theorem isAbsolute_eq_false {c : Component} {cs : List Component} (h : p.components = c :: cs)
    (hc : c ≠ .root) : p.isAbsolute = false := by
  rw [Bool.eq_false_iff, Ne, isAbsolute_iff, h]
  simpa using hc

theorem components_mk (h : IsPart part) (hdot : part ≠ ".") :
    (Path.mk part).components = [part].filterMap component? := by
  rw [components_eq, parts_of_isPart h, lead, isAbsolute_of_isPart h, parts_of_isPart h]
  simp [hdot]

/-! ## More text -/

variable {d : String}

/-- The parts of a path with more text. An empty part at the end makes room for it. -/
theorem parts_join_relative (hp : p.text ≠ "") (hd : d.toList.head? ≠ some '/') :
    (p.join d).parts = p.parts ++ (Path.mk d).parts ∨
      ∃ front, front ≠ [] ∧ p.parts = front ++ [""] ∧
        (p.join d).parts = front ++ (Path.mk d).parts := by
  by_cases hend : p.text.toList.getLast? = some '/'
  · right
    obtain ⟨cs, hcs⟩ := List.getLast?_eq_some_iff.1 hend
    refine ⟨(splitAtSlash cs).map String.ofList, by simp [splitAtSlash_ne_nil], ?_, ?_⟩
    · simp [parts, hcs, splitAtSlash_append_slash, splitAtSlash]
    · simp [join, hd, parts, hcs, splitAtSlash_append_slash]
  · left
    simp [join, hd, hp, hend, parts, splitAtSlash_append_slash]

/-- More text goes behind the text, after a slash where the text has none at its end. -/
theorem text_join_relative (p : Path) (hd : d.toList.head? ≠ some '/') :
    ∃ middle, (middle = "" ∨ middle = "/") ∧ (p.join d).text = p.text ++ (middle ++ d) := by
  unfold join
  rw [if_neg hd]
  split
  · exact ⟨"", Or.inl rfl, by simp⟩
  · exact ⟨"/", Or.inr rfl, by simp [String.append_assoc]⟩

theorem text_join_relative_ne_empty (hp : p.text ≠ "") (hd : d.toList.head? ≠ some '/') :
    (p.join d).text ≠ "" := by
  obtain ⟨middle, -, htext⟩ := text_join_relative p hd
  simp [htext, hp]

theorem isAbsolute_join_relative (hp : p.text ≠ "") (hd : d.toList.head? ≠ some '/') :
    (p.join d).isAbsolute = p.isAbsolute := by
  obtain ⟨middle, -, htext⟩ := text_join_relative p hd
  obtain ⟨c, cs, hcs⟩ := List.exists_cons_of_ne_nil (show p.text.toList ≠ [] by simpa using hp)
  simp [isAbsolute, htext, hcs]

theorem nul_mem_join_relative (hd : d.toList.head? ≠ some '/') :
    '\x00' ∈ (p.join d).text.toList ↔ '\x00' ∈ p.text.toList ∨ '\x00' ∈ d.toList := by
  obtain ⟨middle, rfl | rfl, htext⟩ := text_join_relative p hd <;> simp [htext]

theorem lead_join_relative (hp : p.text ≠ "") (hd : d.toList.head? ≠ some '/') :
    (p.join d).lead = p.lead := by
  have hhead : (p.join d).parts.head? = p.parts.head? := by
    rcases parts_join_relative hp hd with hparts | ⟨front, hfront, hparts, hjoin⟩
    · obtain ⟨first, rest, hfirst⟩ := List.exists_cons_of_ne_nil p.parts_ne_nil
      simp [hparts, hfirst]
    · obtain ⟨first, rest, rfl⟩ := List.exists_cons_of_ne_nil hfront
      simp [hparts, hjoin]
  unfold lead
  rw [isAbsolute_join_relative hp hd, hhead]

theorem components_join_relative (hp : p.text ≠ "") (hd : d.toList.head? ≠ some '/') :
    (p.join d).components = p.components ++ (Path.mk d).parts.filterMap component? := by
  rw [components_eq, components_eq p, lead_join_relative hp hd, List.append_assoc]
  congr 1
  rcases parts_join_relative hp hd with hparts | ⟨front, -, hparts, hjoin⟩
  · rw [hparts, List.filterMap_append]
  · have hempty : component? "" = none := rfl
    simp [hparts, hjoin, List.filterMap_append, hempty]

/-! ## One more part -/

/-- The parts of a path with one more part. An empty part at the end makes room for it. -/
theorem parts_join (hp : p.text ≠ "") (h : IsPart part) :
    (p.join part).parts = p.parts ++ [part] ∨
      ∃ front, front ≠ [] ∧ p.parts = front ++ [""] ∧ (p.join part).parts = front ++ [part] :=
  parts_of_isPart h ▸ parts_join_relative hp h.head?_ne_slash

theorem text_join_ne_empty (hp : p.text ≠ "") (h : IsPart part) : (p.join part).text ≠ "" :=
  text_join_relative_ne_empty hp h.head?_ne_slash

theorem isAbsolute_join (hp : p.text ≠ "") (h : IsPart part) :
    (p.join part).isAbsolute = p.isAbsolute := isAbsolute_join_relative hp h.head?_ne_slash

theorem nul_mem_join (h : IsPart part) :
    '\x00' ∈ (p.join part).text.toList ↔ '\x00' ∈ p.text.toList := by
  rw [nul_mem_join_relative h.head?_ne_slash, or_iff_left h.no_nul]

theorem components_join (hp : p.text ≠ "") (h : IsPart part) :
    (p.join part).components = p.components ++ (component? part).toList := by
  rw [components_join_relative hp h.head?_ne_slash, parts_of_isPart h]
  cases hc : component? part <;> simp [hc]

/-! ## Several more parts -/

theorem text_joins_ne_empty (hp : p.text ≠ "") (h : ∀ part ∈ names, IsPart part) :
    (names.foldl join p).text ≠ "" := by
  induction names generalizing p with
  | nil => exact hp
  | cons part rest ih =>
    simp only [List.forall_mem_cons] at h
    exact ih (text_join_ne_empty hp h.1) h.2

theorem components_joins (hp : p.text ≠ "") (h : ∀ part ∈ names, IsPart part) :
    (names.foldl join p).components = p.components ++ names.filterMap component? := by
  induction names generalizing p with
  | nil => simp
  | cons part rest ih =>
    simp only [List.forall_mem_cons] at h
    rw [List.foldl_cons, ih (text_join_ne_empty hp h.1) h.2, components_join hp h.1]
    cases hc : component? part <;> simp [hc]

theorem filterMap_component? (h : ∀ name ∈ names, IsEntryName name) :
    names.filterMap component? = names.map .name := by
  induction names with
  | nil => rfl
  | cons name rest ih =>
    simp only [List.forall_mem_cons] at h
    rw [List.filterMap_cons_some (component?_eq_name h.1), ih h.2, List.map_cons]

theorem text_joins_mk {text : String} (h : ∀ part ∈ names, IsPart part ∧ part ≠ "")
    (htext : text ≠ "") (hend : text.toList.getLast? ≠ some '/') :
    (names.foldl join ⟨text⟩).text = String.intercalate "/" (text :: names) := by
  induction names generalizing text with
  | nil => simp
  | cons part rest ih =>
    simp only [List.forall_mem_cons] at h
    obtain ⟨⟨hpart, hne⟩, hrest⟩ := h
    obtain ⟨c, cs, hcs⟩ := List.exists_cons_of_ne_nil (show part.toList ≠ [] by simpa using hne)
    have hjoin : (Path.mk text).join part = ⟨text ++ "/" ++ part⟩ := by
      simp [join, hpart.head?_ne_slash, htext, hend]
    have hlast : (text ++ "/" ++ part).toList.getLast? ≠ some '/' := by
      have := hpart.getLast?_ne_slash
      simpa [List.getLast?_append, hcs] using this
    rw [List.foldl_cons, hjoin, ih hrest (by simp [htext]) hlast, String.intercalate_cons_append,
      String.intercalate_cons_cons]

/-- Parts in a row, with a slash between one and the next. -/
theorem text_joins (h : ∀ part ∈ names, IsPart part ∧ part ≠ "") :
    (names.foldl join ⟨""⟩).text = String.intercalate "/" names := by
  cases names with
  | nil => rfl
  | cons part rest =>
    simp only [List.forall_mem_cons] at h
    obtain ⟨⟨hpart, hne⟩, hrest⟩ := h
    have hjoin : (Path.mk "").join part = ⟨part⟩ := by simp [join, hpart.head?_ne_slash]
    rw [List.foldl_cons, hjoin, text_joins_mk hrest hne hpart.getLast?_ne_slash]

/-! ## Seen from a directory -/

theorem way?_append (above rest : List Component) :
    way? false (above ++ rest) above = some rest := by
  induction above with
  | nil => cases rest <;> rfl
  | cons c above ih => simp [way?, ih]

theorem slashed_eq_empty_iff {text : String} : slashed text = "" ↔ text = "" := by
  rw [slashed, ← String.toList_inj, ← String.toList_inj]
  simp

/-- A way down, once the way between two paths is known. -/
theorem relative_of_way? {texts : List String} {way : List Component}
    (hway : way? false p.components base.components = some way)
    (habs : p.isAbsolute = base.isAbsolute) (htexts : way.map Component.text = texts)
    (hparts : ∀ part ∈ texts, IsPart part ∧ part ≠ "") (hne : texts ≠ []) :
    p.relative base = slashed (String.intercalate "/" texts) := by
  have hseen : (p.seenFrom base).text = String.intercalate "/" texts := by
    rw [seenFrom, if_pos habs, hway, ← text_joins hparts, ← htexts, List.foldl_map]
    rfl
  have hfull : slashed (String.intercalate "/" texts) ≠ "" := by
    obtain ⟨first, rest, rfl⟩ := List.exists_cons_of_ne_nil hne
    have hfirst := (hparts first List.mem_cons_self).2
    rw [Ne, slashed_eq_empty_iff]
    cases rest <;> simp [hfirst]
  rw [relative, hseen, if_neg hfull]

/-- A file below a directory is spelled by the names down to it. -/
theorem relative_below (hp : p.components = base.components ++ names.map .name)
    (h : ∀ name ∈ names, IsEntryName name) (hne : names ≠ []) :
    p.relative base = slashed (String.intercalate "/" names) := by
  have habs : p.isAbsolute = base.isAbsolute := by
    rw [Bool.eq_iff_iff, isAbsolute_iff, isAbsolute_iff, hp]
    obtain ⟨name, rest, rfl⟩ := List.exists_cons_of_ne_nil hne
    cases base.components <;> simp
  refine relative_of_way? (hp ▸ way?_append _ _) habs ?_
    (fun name hname => ⟨(h name hname).toIsPart, (h name hname).ne_empty⟩) hne
  simp [Function.comp_def, Component.text]

end Path

end ApexSyntax
