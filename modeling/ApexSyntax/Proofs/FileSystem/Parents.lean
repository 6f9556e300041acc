-- The paths above a path, as far as its text goes. Each drops the last component of the one
-- below it, and where the one below names a directory it names a directory too.
import ApexSyntax.Proofs.FileSystem.CleanPaths
import Mathlib.Data.List.Basic

namespace ApexSyntax

/-! ## Trimmed parts -/

namespace Path

variable {p q above : Path} {part name : String} {front parts : List String} {leads : Bool}

theorem trimParts_front (leads : Bool) (parts : List String) : trimParts leads parts <+: parts := by
  induction parts generalizing leads with
  | nil => exact List.prefix_refl _
  | cons part rest ih =>
    simp only [trimParts]
    split
    · split
      · exact List.nil_prefix
      · exact List.cons_prefix_cons.2 ⟨rfl, List.nil_prefix⟩
    · next hrest => exact List.cons_prefix_cons.2 ⟨rfl, ih false⟩

theorem filterMap_trimParts (leads : Bool) (parts : List String) :
    (trimParts leads parts).filterMap component? = parts.filterMap component? := by
  induction parts generalizing leads with
  | nil => rfl
  | cons part rest ih =>
    have hrest := ih false
    simp only [trimParts]
    split
    · next hnil =>
      rw [hnil, List.filterMap_nil] at hrest
      split
      · next hskip =>
        have hnone : component? part = none := component?_eq_none_iff.2 (hskip.imp_right And.left)
        rw [List.filterMap_cons_none hnone, ← hrest]
        rfl
      · rw [List.filterMap_cons, List.filterMap_cons, ← hrest]
        rfl
    · rw [List.filterMap_cons, hrest, List.filterMap_cons]

theorem head?_trimParts (h : trimParts leads parts ≠ []) :
    (trimParts leads parts).head? = parts.head? := by
  cases parts with
  | nil => rfl
  | cons part rest =>
    cases hrest : trimParts false rest with
    | nil =>
      by_cases hskip : part = "" ∨ (part = "." ∧ (!leads) = true)
      · simp only [trimParts, hrest, hskip, if_true, ne_eq, not_true] at h
      · simp only [trimParts, hrest, hskip, if_false, List.head?_cons]
    | cons next more => simp [trimParts, hrest]

/-- The dot that leads a path is left. -/
theorem head?_ne_of_trimParts_eq_nil (h : trimParts true parts = []) : parts.head? ≠ some "." := by
  intro hdot
  obtain ⟨rest, rfl⟩ := List.head?_eq_some_iff.1 hdot
  simp only [trimParts] at h
  split at h <;> simp at h

/-- What is left ends with a step, or it is the dot that leads a path. -/
theorem isSome_of_trimParts_eq (h : trimParts leads parts = front ++ [part]) :
    (component? part).isSome = true ∨ (leads = true ∧ front = [] ∧ part = ".") := by
  induction parts generalizing leads front with
  | nil => simp [trimParts] at h
  | cons first rest ih =>
    simp only [trimParts] at h
    split at h
    · split at h
      · simp at h
      · next hkeep =>
        obtain ⟨rfl, hlast⟩ := List.append_eq_singleton_iff.1 h.symm |>.resolve_right (by simp)
        obtain rfl : first = part := (List.cons.inj hlast).1.symm
        rw [not_or, not_and] at hkeep
        by_cases hdot : first = "."
        · exact Or.inr ⟨by simpa using hkeep.2 hdot, rfl, hdot⟩
        · left
          rw [Option.isSome_iff_ne_none, Ne, component?_eq_none_iff, not_or]
          exact ⟨hkeep.1, hdot⟩
    · next kept hkept =>
      cases front with
      | nil => exact absurd (List.cons.inj h).2 hkept
      | cons a front =>
        left
        simpa using ih (List.cons.inj h).2

theorem isAbsolute_iff_parts (hp : p.text ≠ "") :
    p.isAbsolute = true ↔ p.parts.head? = some "" := by
  constructor
  · intro h
    obtain ⟨cs, hcs⟩ := List.head?_eq_some_iff.1 (of_decide_eq_true h)
    simp [parts, hcs, splitAtSlash]
  · exact fun h => (head?_parts h).resolve_left hp

/-- Parts that are joined with slashes between them are the parts of the text. -/
theorem parts_intercalate (h : ∀ part ∈ parts, '/' ∉ part.toList) (hne : parts ≠ []) :
    (Path.mk (String.intercalate "/" parts)).parts = parts := by
  induction parts with
  | nil => exact absurd rfl hne
  | cons part rest ih =>
    simp only [List.forall_mem_cons] at h
    cases hrest : rest with
    | nil => simp [Path.parts, splitAtSlash_of_not_mem h.1]
    | cons next more =>
      have hback := ih h.2 (by simp [hrest])
      have htext : (String.intercalate "/" (part :: next :: more)).toList =
          part.toList ++ '/' :: (String.intercalate "/" (next :: more)).toList := by
        rw [String.intercalate_cons_cons, String.toList_append, String.toList_append,
          List.append_assoc]
        rfl
      rw [hrest, Path.parts] at hback
      rw [Path.parts, htext, splitAtSlash_append _ h.1, List.map_cons, hback, String.ofList_toList]

/-! ## The path above -/

/-- Only the empty path has no components. -/
theorem components_eq_nil_iff : p.components = [] ↔ p.text = "" := by
  constructor
  · intro h
    refine Decidable.byContradiction fun hp => ?_
    have hways := h
    rw [components_eq, List.append_eq_nil_iff] at hways
    have habs : p.isAbsolute = false := by
      cases habs : p.isAbsolute with
      | false => rfl
      | true => simp [lead, habs] at hways
    have hsteps : p.steps = [] := by rw [steps, ← map_text_components, hways.2, List.map_nil]
    rw [components_of_steps_eq_nil hp habs hsteps] at h
    cases h
  · intro h
    obtain ⟨text⟩ := p
    obtain rfl : text = "" := h
    rfl

/-- Parts at the front of a path, without those that are no components, name what they name
there. At the top of the tree nothing is left of them but a slash. -/
theorem components_trimmed (hp : p.text ≠ "") (hfront : front <+: p.parts) (hne : front ≠ []) :
    (Path.mk (if p.isAbsolute ∧ String.intercalate "/" (trimParts true front) = "" then "/"
      else String.intercalate "/" (trimParts true front))).components =
      p.lead ++ front.filterMap component? := by
  have hhead : front.head? = p.parts.head? := by
    obtain ⟨first, rest, rfl⟩ := List.exists_cons_of_ne_nil hne
    obtain ⟨back, hback⟩ := hfront
    rw [← hback]
    rfl
  by_cases hnil : trimParts true front = []
  · have hnone : front.filterMap component? = [] := by rw [← filterMap_trimParts true, hnil]; rfl
    have hdot : p.parts.head? ≠ some "." := hhead ▸ head?_ne_of_trimParts_eq_nil hnil
    rw [hnil, hnone, lead, if_neg hdot]
    cases p.isAbsolute <;> rfl
  · have hslash : ∀ part ∈ trimParts true front, '/' ∉ part.toList := fun part hpart =>
      no_slash_of_mem_parts (hfront.subset ((trimParts_front true front).subset hpart))
    have hback := parts_intercalate hslash hnil
    have htext : String.intercalate "/" (trimParts true front) ≠ "" := by
      intro hempty
      rw [hempty] at hback
      have hlast : trimParts true front = [] ++ [""] := hback.symm
      rcases isSome_of_trimParts_eq hlast with h | h
      · cases h
      · exact absurd h.2.2 (by decide)
    have habs : (Path.mk (String.intercalate "/" (trimParts true front))).isAbsolute =
        p.isAbsolute := by
      have hstart :=
        isAbsolute_iff_parts (p := ⟨String.intercalate "/" (trimParts true front)⟩) htext
      rw [Bool.eq_iff_iff, hstart, isAbsolute_iff_parts hp, hback, head?_trimParts hnil, hhead]
    rw [if_neg (fun h => htext h.2), components_eq, hback, filterMap_trimParts, lead, lead, habs,
      hback, head?_trimParts hnil, hhead]

theorem parent?_eq {last : String} (h : trimParts true p.parts = front ++ [last]) :
    p.parent? = some ⟨if p.isAbsolute ∧ String.intercalate "/" (trimParts true front) = "" then "/"
      else String.intercalate "/" (trimParts true front)⟩ := by
  have hlast : (front ++ [last]).dropLast = front := List.dropLast_concat
  rw [parent?, h]
  split
  · next hnil => simp at hnil
  · rw [hlast]

theorem components_eq_trimParts (p : Path) :
    p.components = p.lead ++ (trimParts true p.parts).filterMap component? := by
  rw [filterMap_trimParts, components_eq]

/-- Where one part is left it is the dot at the front or the only step, and the path does not
start at the top of the tree. -/
theorem length_components_of_trimParts (hp : p.text ≠ "")
    (htrim : trimParts true p.parts = [part]) :
    p.isAbsolute = false ∧ p.components.length = 1 := by
  have hlast := isSome_of_trimParts_eq (htrim.trans (List.nil_append [part]).symm)
  have hhead : p.parts.head? = some part := by
    have hne : trimParts true p.parts ≠ [] := by simp [htrim]
    rw [← head?_trimParts hne, htrim]
    rfl
  have habs : p.isAbsolute = false := by
    rw [← Bool.not_eq_true, isAbsolute_iff_parts hp, hhead]
    rintro ⟨rfl⟩
    simp [component?] at hlast
  refine ⟨habs, ?_⟩
  rw [components_eq_trimParts, htrim, lead, habs, hhead]
  rcases hlast with hstep | ⟨-, -, rfl⟩
  · obtain ⟨c, hc⟩ := Option.isSome_iff_exists.1 hstep
    have hdot : part ≠ "." := by
      rintro rfl
      cases hc
    simp [hdot, hc]
  · rfl

/-- The path above drops the last component. There is none above the top of the tree. -/
theorem parent?_cases (hp : p.text ≠ "") :
    (p.parent? = none ∧ p.components = [.root]) ∨
      ∃ above, p.parent? = some above ∧ above.components = p.components.dropLast := by
  have hways := p.components_eq_trimParts
  rcases List.eq_nil_or_concat (trimParts true p.parts) with htrim | ⟨front, last, htrim⟩
  · refine Or.inl ⟨by rw [parent?, htrim], ?_⟩
    have hne := mt components_eq_nil_iff.1 hp
    rw [hways, htrim, lead, if_neg (head?_ne_of_trimParts_eq_nil htrim)] at hne ⊢
    cases habs : p.isAbsolute with
    | true => rfl
    | false => simp [habs] at hne
  · rw [List.concat_eq_append] at htrim
    refine Or.inr ⟨_, parent?_eq htrim, ?_⟩
    by_cases hfront : front = []
    · subst hfront
      obtain ⟨habs, hone⟩ := length_components_of_trimParts hp htrim
      have hnil : p.components.dropLast = [] := List.eq_nil_of_length_eq_zero (by simp [hone])
      rw [habs, hnil]
      rfl
    · obtain ⟨c, hc⟩ := Option.isSome_iff_exists.1
        ((isSome_of_trimParts_eq htrim).resolve_right fun h => hfront h.2.1)
      have hprefix : front <+: p.parts :=
        (List.prefix_append front [last]).trans (htrim ▸ trimParts_front true p.parts)
      rw [components_trimmed hp hprefix hfront, hways, htrim, List.filterMap_append,
        List.filterMap_cons_some hc, List.filterMap_nil, ← List.append_assoc, List.dropLast_concat]

/-- The directory of a file is named by the path above the file, up to its spelling. -/
theorem parent?_join (hp : p.text ≠ "") (hname : IsEntryName name) :
    ∃ above, (p.join name).parent? = some above ∧ above.text ≠ "" ∧
      above.components = p.components := by
  have hcomponents : (p.join name).components = p.components ++ [Component.name name] := by
    rw [components_join hp hname.toIsPart, component?_eq_name hname]
    rfl
  have hne := mt components_eq_nil_iff.1 hp
  rcases parent?_cases (text_join_ne_empty hp hname.toIsPart) with
    ⟨-, htop⟩ | ⟨above, habove, hdrop⟩
  · rw [hcomponents, List.append_eq_singleton_iff] at htop
    simp [hne] at htop
  · rw [hcomponents, List.dropLast_concat] at hdrop
    exact ⟨above, habove, mt components_eq_nil_iff.2 (hdrop ▸ hne), hdrop⟩

/-! ## The path and those above -/

/-- The path is another one or above it, as far as the text of that one goes: its components
are some of the other's, from the front. -/
structure AtOrAbove (q p : Path) : Prop where
  text : q.text ≠ ""
  front : q.components <+: p.components

namespace AtOrAbove

theorem refl (hp : p.text ≠ "") : p.AtOrAbove p := ⟨hp, List.prefix_refl _⟩

theorem components_ne_nil (h : q.AtOrAbove p) : q.components ≠ [] :=
  mt components_eq_nil_iff.1 h.text

theorem text_below (h : q.AtOrAbove p) : p.text ≠ "" := fun hp =>
  h.components_ne_nil (List.prefix_nil.1 (components_eq_nil_iff.2 hp ▸ h.front))

theorem of_above (h : q.AtOrAbove above) (hdrop : above.components = p.components.dropLast) :
    q.AtOrAbove p :=
  ⟨h.text, h.front.trans (hdrop ▸ List.dropLast_prefix _)⟩

/-- What is at or above a path is the path, or at or above the one above it. -/
theorem cases_above (h : q.AtOrAbove p) (hdrop : above.components = p.components.dropLast) :
    q.components = p.components ∨ q.AtOrAbove above := by
  have hne : p.components ≠ [] := mt components_eq_nil_iff.1 h.text_below
  have hfront : q.components <+: above.components ++ [p.components.getLast hne] := by
    rw [hdrop, List.dropLast_concat_getLast]
    exact h.front
  rcases List.prefix_concat_iff.1 hfront with heq | hfront
  · left
    rw [heq, hdrop, List.dropLast_concat_getLast]
  · exact Or.inr ⟨h.text, hfront⟩

end AtOrAbove

/-- Above a path that starts at the top of the tree is the top. -/
theorem top_atOrAbove (h : p.isAbsolute = true) : (Path.mk "/").AtOrAbove p :=
  ⟨by decide, p.parts.filterMap component?, by rw [components_eq p, lead, if_pos h]; rfl⟩

/-- A dot is above the paths that a dot leads. -/
theorem here_atOrAbove_iff : (Path.mk ".").AtOrAbove p ↔ .here ∈ p.components := by
  constructor
  · exact fun h => h.front.subset List.mem_cons_self
  · intro h
    obtain ⟨habs, hdot⟩ := here_mem_components_iff.1 h
    refine ⟨by decide, p.parts.filterMap component?, ?_⟩
    rw [components_eq p, lead, habs, hdot]
    rfl

theorem length_lead_le (p : Path) : p.lead.length ≤ 1 := by
  unfold lead
  split
  · exact Nat.le_refl 1
  · split <;> simp

/-- With more parts a path that is above another has the components of that one. -/
theorem AtOrAbove.exists_joins (h : q.AtOrAbove p) (hnul : '\x00' ∉ p.text.toList) :
    ∃ rest : List String, (∀ part ∈ rest, IsPart part) ∧
      (rest.foldl join q).components = p.components := by
  obtain ⟨rest, hrest⟩ := h.front
  have hways : p.lead ++ p.parts.filterMap component? = p.components := (components_eq p).symm
  obtain ⟨more, hmore⟩ : p.lead <+: q.components := by
    refine List.prefix_of_prefix_length_le ⟨_, hways⟩ h.front (Nat.le_trans p.length_lead_le ?_)
    exact List.length_pos_iff.2 h.components_ne_nil
  have hsteps : more ++ rest = p.parts.filterMap component? := by
    rwa [← hrest, ← hmore, List.append_assoc, List.append_cancel_left_eq, eq_comm] at hways
  have hpart : ∀ c ∈ rest, c.text ∈ p.parts ∧ component? c.text = some c := by
    intro c hc
    obtain ⟨part, hmem, hpart⟩ := List.mem_filterMap.1 (hsteps ▸ List.mem_append_right more hc)
    rw [text_of_component? hpart]
    exact ⟨hmem, hpart⟩
  have hparts : ∀ part ∈ rest.map Component.text, IsPart part := by
    intro part hmem
    obtain ⟨c, hc, rfl⟩ := List.mem_map.1 hmem
    exact isPart_of_mem_parts hnul (hpart c hc).1
  refine ⟨rest.map Component.text, hparts, ?_⟩
  have hback : rest.filterMap (component? ∘ Component.text) = rest :=
    (List.filterMap_congr fun c hc => (hpart c hc).2).trans List.filterMap_some
  rw [components_joins h.text hparts, List.filterMap_map, hback, hrest]

end Path

/-! ## Where paths with the same components lead -/

namespace FileSystem

variable {fs : FileSystem} {p q : Path} {part : String} {parts : List String} {loc : Location}
  {es : List (String × Node)} {left : Nat}

theorem find_of_nul (h : '\x00' ∈ p.text.toList) : fs.find false p = .error .invalidPath := by
  simp [find, h]

/-- A clean path with more parts leads where the path leads with them. -/
theorem goOn_find_clean (hp : p.text ≠ "") (hways : p.components ≠ [.here]) :
    fs.goOn (part :: parts) (fs.find false p) =
      fs.goOn (part :: parts) (fs.find false p.clean) := by
  by_cases hnul : '\x00' ∈ p.text.toList
  · rw [find_of_nul hnul, find_of_nul (Path.nul_mem_clean.2 hnul)]
  · rcases fs.find_clean hp hnul hways with heq | heq
    · rw [heq]
    · rw [heq, goOn_goOn (by simp)]
      rcases fs.find false p.clean with e | ⟨loc, n, left⟩ | ⟨loc, name⟩
      · rfl
      · exact walk_skip (Or.inr rfl)
      · rfl

/-- With more parts, where a path leads depends on its components alone. -/
theorem goOn_find_congr (hp : p.text ≠ "") (hq : q.text ≠ "") (h : q.components = p.components) :
    fs.goOn (part :: parts) (fs.find false q) = fs.goOn (part :: parts) (fs.find false p) := by
  by_cases hways : p.components = [.here]
  · rw [find_of_components_eq_here hways, find_of_components_eq_here (h.trans hways)]
  · have hclean : q.clean = p.clean := by rw [Path.clean, Path.clean, h]
    rw [goOn_find_clean hp hways, goOn_find_clean hq (h ▸ hways), hclean]

/-- A path to a directory leads there in any spelling. -/
theorem find_dir_congr (hq : q.text ≠ "") (h : q.components = p.components)
    (hfind : fs.find false p = .ok (.taken loc (.dir es) left)) :
    fs.find false q = .ok (.taken loc (.dir es) left) := by
  by_cases hways : p.components = [.here]
  · rw [find_of_components_eq_here (h.trans hways), ← find_of_components_eq_here hways, hfind]
  · have hclean : q.clean = p.clean := by rw [Path.clean, Path.clean, h]
    refine find_of_find_clean hq (h ▸ hways) ?_
    rw [hclean]
    exact find_clean_of_find hways hfind

theorem exists_join_congr (hp : p.text ≠ "") (hq : q.text ≠ "") (h : q.components = p.components)
    (hpart : IsPart part) : fs.exists (q.join part) = fs.exists (p.join part) := by
  rw [«exists», «exists», node, node, find_join hq hpart, find_join hp hpart,
    goOn_find_congr hp hq h]

/-- Above a directory are directories. -/
theorem isDir_of_atOrAbove (h : q.AtOrAbove p) (hdir : fs.isDir p = true) : fs.isDir q = true := by
  obtain ⟨loc, es, left, hfind, -⟩ := find_of_isDir hdir
  obtain ⟨rest, hparts, hcomponents⟩ := h.exists_joins (text_of_find hfind).2
  have hjoins := find_dir_congr (Path.text_joins_ne_empty h.text hparts) hcomponents hfind
  cases rest with
  | nil => exact isDir_of_find hjoins
  | cons part rest =>
    rw [find_joins h.text hparts (by simp)] at hjoins
    obtain ⟨goal, n, left', habove⟩ := taken_of_goOn hjoins
    rw [habove, goOn_taken] at hjoins
    obtain ⟨es', hat⟩ := isDir_of_walk hjoins
    obtain rfl := Option.some.inj ((at?_of_find habove).symm.trans hat)
    exact isDir_of_find habove

/-- Where the names between two paths lead through no link, the one below names a place below. -/
theorem realLocation?_of_atOrAbove {d : Node} {names : Location} (hfs : fs.top.Proper)
    (hp : p.text ≠ "") (hnode : fs.node q = .ok d)
    (hcomponents : p.components = q.components ++ names.map .name)
    (hnames : (d.at? names).any Node.isDir = true) :
    fs.realLocation? p = (fs.realLocation? q).map (· ++ names) := by
  obtain ⟨loc, n, left, hfind⟩ := exists_iff.1 (exists_of_node hnode)
  obtain rfl : n = d := by simpa [node, hfind] using hnode
  obtain ⟨m, hat, hm⟩ := (Option.any_eq_true ..).1 hnames
  obtain ⟨es', rfl⟩ := Node.exists_dir_of_isDir hm
  obtain ⟨es, rfl⟩ : ∃ es, n = .dir es := by
    cases hn : n.isDir with
    | true => exact Node.exists_dir_of_isDir hn
    | false =>
      obtain rfl := Node.eq_nil_of_at? hn hat
      exact ⟨es', Option.some.inj hat⟩
  have hentries := (hfs.at? (at?_of_find hfind)).isEntryName_of_at? hat
  have hparts : ∀ name ∈ names, IsPart name := fun name hname => (hentries name hname).toIsPart
  have hjoins := find_joins_of_at? hfs hfind hat
  have hbelow : p.components = (names.foldl Path.join q).components := by
    rw [Path.components_joins (text_of_find hfind).1 hparts, Path.filterMap_component? hentries,
      hcomponents]
  simp [realLocation?, hfind, find_dir_congr hp hbelow hjoins]

end FileSystem

end ApexSyntax
