-- Paths without their dots. A clean path leads where the path led, with two exceptions:
-- where nothing but dots is left it leads nowhere, and behind a file it drops the slash
-- that asks for a directory.
import ApexSyntax.Proofs.FileSystem.Walks

namespace ApexSyntax

/-! ## Steps -/

namespace Path

variable {p : Path} {part : String} {names : List String}

/-- The parts of a path that are steps of its way. -/
def steps (p : Path) : List String := p.parts.filter fun part => (component? part).isSome

theorem text_of_component? {c : Component} (h : component? part = some c) : c.text = part := by
  unfold component? at h
  split at h
  · cases h
  · split at h
    · next hup => cases h; exact hup.symm
    · cases h; rfl

theorem component?_eq_none_iff : component? part = none ↔ part = "" ∨ part = "." := by
  unfold component?
  split
  · next h => simp [h]
  · next h => split <;> simp [h]

theorem filterMap_steps (parts : List String) :
    (parts.filter fun part => (component? part).isSome).filterMap component? =
      parts.filterMap component? := by
  induction parts with
  | nil => rfl
  | cons part rest ih => cases hc : component? part <;> simp [hc, ih]

theorem map_text_components (parts : List String) :
    (parts.filterMap component?).map Component.text =
      parts.filter fun part => (component? part).isSome := by
  induction parts with
  | nil => rfl
  | cons part rest ih =>
    cases hc : component? part with
    | none => simp [hc, ih]
    | some c => simp [hc, ih, text_of_component? hc]

theorem no_slash_of_mem_parts (h : part ∈ p.parts) : '/' ∉ part.toList := by
  obtain ⟨cs, hcs, rfl⟩ := List.mem_map.1 h
  simpa using (slash_notMem_of_mem_splitAtSlash hcs).1

theorem mem_parts_of_mem_steps (h : part ∈ p.steps) : part ∈ p.parts := (List.mem_filter.1 h).1

theorem isPart_of_mem_steps (hnul : '\x00' ∉ p.text.toList) (h : part ∈ p.steps) : IsPart part :=
  isPart_of_mem_parts hnul (mem_parts_of_mem_steps h)

theorem ne_of_mem_steps (h : part ∈ p.steps) : part ≠ "" ∧ part ≠ "." := by
  have hsome := (List.mem_filter.1 h).2
  rw [← not_or, ← component?_eq_none_iff]
  intro hnone
  rw [hnone] at hsome
  cases hsome

/-! ## Clean paths -/

theorem filter_components :
    p.components.filter (· ≠ .here) =
      (if p.isAbsolute then [Component.root] else []) ++ p.parts.filterMap component? := by
  have hkeep : (p.parts.filterMap component?).filter (· ≠ .here) =
      p.parts.filterMap component? := by
    refine List.filter_eq_self.2 fun c hc => ?_
    obtain ⟨part, -, hpart⟩ := List.mem_filterMap.1 hc
    simpa using (component?_ordinary hpart).2
  rw [components_eq, List.filter_append, hkeep, lead]
  by_cases habs : p.isAbsolute <;> by_cases hdot : p.parts.head? = some "." <;> simp [habs, hdot]

/-- A clean path is made of the steps of its way. -/
theorem clean_eq : p.clean = p.steps.foldl join ⟨if p.isAbsolute then "/" else ""⟩ := by
  have hfold : ∀ (cs : List Component) (q : Path),
      cs.foldl (fun q c => q.join c.text) q = (cs.map Component.text).foldl join q := fun cs q =>
    List.foldl_map.symm
  rw [clean, ofComponents, filter_components, List.foldl_append, hfold, map_text_components, steps]
  cases p.isAbsolute <;> rfl

/-- The steps of a path are joined again from the top, or from the first one. -/
theorem clean_eq_of_steps {first : String} {rest : List String} (habs : p.isAbsolute = false)
    (hsteps : p.steps = first :: rest) : p.clean = rest.foldl join ⟨first⟩ := by
  have hfirst : first ∈ p.parts := mem_parts_of_mem_steps (by simp [hsteps])
  have hhead : first.toList.head? ≠ some '/' := fun h =>
    no_slash_of_mem_parts hfirst (List.mem_of_head? h)
  rw [clean_eq, habs, hsteps, List.foldl_cons]
  simp [join, hhead]

/-- A relative path without a step is a dot. -/
theorem components_of_steps_eq_nil (hp : p.text ≠ "") (habs : p.isAbsolute = false)
    (hsteps : p.steps = []) : p.components = [.here] := by
  obtain ⟨first, rest, hfirst⟩ := List.exists_cons_of_ne_nil p.parts_ne_nil
  have hnone : component? first = none := by
    have hall : ∀ part ∈ p.parts, component? part = none := by
      simpa [steps, List.filter_eq_nil_iff] using hsteps
    exact hall first (by simp [hfirst])
  have hdot : first = "." := by
    refine (component?_eq_none_iff.1 hnone).resolve_left ?_
    rintro rfl
    rcases head?_parts (show p.parts.head? = some "" by rw [hfirst]; rfl) with htext | htext
    · exact hp htext
    · exact absurd (habs.symm.trans htext) (by decide)
  have hways : p.parts.filterMap component? = [] := by
    rw [← filterMap_steps, ← steps, hsteps]
    rfl
  rw [components_eq, hways, lead, habs, hfirst, hdot]
  rfl

theorem nul_mem_joins {names : List String} (h : ∀ name ∈ names, '/' ∉ name.toList) :
    '\x00' ∈ (names.foldl join p).text.toList ↔
      '\x00' ∈ p.text.toList ∨ ∃ name ∈ names, '\x00' ∈ name.toList := by
  induction names generalizing p with
  | nil => simp
  | cons name rest ih =>
    simp only [List.forall_mem_cons] at h
    have hhead : name.toList.head? ≠ some '/' := fun hhead => h.1 (List.mem_of_head? hhead)
    rw [List.foldl_cons, ih h.2, nul_mem_join_relative hhead]
    simp [or_assoc]

/-- A character that is no slash is in one of the parts. -/
theorem exists_mem_splitAtSlash {cs : List Char} {c : Char} (h : c ∈ cs) (hc : c ≠ '/') :
    ∃ part ∈ splitAtSlash cs, c ∈ part := by
  induction cs with
  | nil => cases h
  | cons a cs ih =>
    by_cases ha : a = '/'
    · subst ha
      obtain ⟨part, hpart, hmem⟩ := ih ((List.mem_cons.1 h).resolve_left hc)
      exact ⟨part, by simp [splitAtSlash, hpart], hmem⟩
    · cases hs : splitAtSlash cs with
      | nil => exact absurd hs (splitAtSlash_ne_nil cs)
      | cons first parts =>
        simp only [splitAtSlash, ha, if_false, hs]
        rcases List.mem_cons.1 h with rfl | h
        · exact ⟨_, List.mem_cons_self, List.mem_cons_self⟩
        · obtain ⟨part, hpart, hmem⟩ := ih h
          rw [hs] at hpart
          rcases List.mem_cons.1 hpart with rfl | hpart
          · exact ⟨_, List.mem_cons_self, List.mem_cons_of_mem _ hmem⟩
          · exact ⟨part, List.mem_cons_of_mem _ hpart, hmem⟩

/-- What cannot be in a path is not cleaned away. -/
theorem nul_mem_clean : '\x00' ∈ p.clean.text.toList ↔ '\x00' ∈ p.text.toList := by
  have hparts : ∀ part ∈ p.steps, '/' ∉ part.toList := fun part h =>
    no_slash_of_mem_parts (mem_parts_of_mem_steps h)
  have hstart : '\x00' ∉ (Path.mk (if p.isAbsolute then "/" else "")).text.toList := by
    cases p.isAbsolute <;> decide
  rw [clean_eq, nul_mem_joins hparts, or_iff_right hstart]
  constructor
  · rintro ⟨part, hpart, hnul⟩
    obtain ⟨cs, hcs, rfl⟩ := List.mem_map.1 (mem_parts_of_mem_steps hpart)
    exact (slash_notMem_of_mem_splitAtSlash hcs).2 _ (by simpa using hnul)
  · intro hnul
    obtain ⟨cs, hcs, hmem⟩ := exists_mem_splitAtSlash hnul (by decide)
    have hpart : String.ofList cs ∈ p.parts := List.mem_map_of_mem hcs
    have hstep : component? (String.ofList cs) ≠ none := by
      rw [Ne, component?_eq_none_iff, ← String.toList_inj, ← String.toList_inj,
        String.toList_ofList]
      rintro (rfl | rfl)
      · cases hmem
      · exact absurd hmem (by decide)
    exact ⟨_, List.mem_filter.2 ⟨hpart, Option.isSome_iff_ne_none.2 hstep⟩, by simpa using hmem⟩

end Path

/-! ## Where a clean path leads -/

namespace FileSystem

variable {fs : FileSystem} {loc : Location} {left : Nat} {parts : List String} {p : Path} {n : Node}

/-- Parts that are no steps ask for a directory. -/
theorem walk_skips (h : ∀ part ∈ parts, Path.component? part = none) (hne : parts ≠ []) :
    fs.walk false left loc parts = fs.walk false left loc ["."] := by
  induction parts with
  | nil => exact absurd rfl hne
  | cons part rest ih =>
    simp only [List.forall_mem_cons, Path.component?_eq_none_iff] at h
    cases hrest : rest with
    | nil =>
      obtain ⟨follow, hfollow⟩ := fs.walk_eq_walkBy false left
      rw [hfollow]
      simp [walkBy, h.1]
    | cons next more =>
      rw [walk_skip h.1, ← hrest]
      exact ih (fun part hpart => Path.component?_eq_none_iff.2 (h.2 part hpart)) (by simp [hrest])

/-- The steps among the parts lead where the parts lead, except that parts behind them may ask
for a directory. -/
theorem walk_steps {steps : List String} (hne : steps ≠ [])
    (hsteps : (parts.filter fun part => (Path.component? part).isSome) = steps) :
    fs.walk false left loc parts = fs.walk false left loc steps ∨
      fs.walk false left loc parts = fs.goOn ["."] (fs.walk false left loc steps) := by
  induction parts generalizing left loc steps with
  | nil => exact absurd hsteps.symm hne
  | cons part rest ih =>
    cases hpart : Path.component? part with
    | none =>
      rw [List.filter_cons_of_neg (by simp [hpart])] at hsteps
      obtain ⟨next, more, hrest⟩ := List.exists_cons_of_ne_nil (show rest ≠ [] by
        rintro rfl
        exact hne hsteps.symm)
      rw [hrest, walk_skip (Path.component?_eq_none_iff.1 hpart), ← hrest]
      exact ih hne hsteps
    | some c =>
      rw [List.filter_cons_of_pos (by simp [hpart])] at hsteps
      subst hsteps
      by_cases hrest : rest = []
      · exact Or.inl (by simp [hrest])
      rw [walk_cons hrest]
      by_cases hmore : (rest.filter fun part => (Path.component? part).isSome) = []
      · have hnone : ∀ part ∈ rest, Path.component? part = none := by
          simpa [List.filter_eq_nil_iff] using hmore
        right
        rw [hmore]
        rcases fs.walk false left loc [part] with e | ⟨goal, m, left'⟩ | ⟨loc', name⟩
        · rfl
        · exact walk_skips hnone hrest
        · rfl
      · rw [walk_cons hmore]
        rcases fs.walk false left loc [part] with e | ⟨goal, m, left'⟩ | ⟨loc', name⟩
        · exact Or.inl rfl
        · exact ih hmore rfl
        · exact Or.inl rfl

/-- A clean path leads where the path leads, except that the path may ask for a directory. -/
theorem find_clean (hp : p.text ≠ "") (hnul : '\x00' ∉ p.text.toList)
    (hways : p.components ≠ [.here]) :
    fs.find false p = fs.find false p.clean ∨
      fs.find false p = fs.goOn ["."] (fs.find false p.clean) := by
  have hparts : ∀ part ∈ p.steps, IsPart part := fun part => Path.isPart_of_mem_steps hnul
  rw [find_eq hp hnul]
  cases habs : p.isAbsolute with
  | true =>
    have htop : fs.find false ⟨"/"⟩ = fs.walk false maxLinks [] ["", ""] := rfl
    have hclean : p.clean = p.steps.foldl Path.join ⟨"/"⟩ := by rw [Path.clean_eq, habs]; rfl
    rw [if_pos rfl, hclean]
    by_cases hsteps : p.steps = []
    · have hnone : ∀ part ∈ p.parts, Path.component? part = none := by
        simpa [Path.steps, List.filter_eq_nil_iff] using hsteps
      left
      rw [hsteps, List.foldl_nil, htop, walk_skips hnone p.parts_ne_nil]
      exact (walk_skips (by decide) (by simp)).symm
    · have hroot : fs.goOn p.steps (fs.find false ⟨"/"⟩) = fs.walk false maxLinks [] p.steps := by
        obtain ⟨first, rest, hfirst⟩ := List.exists_cons_of_ne_nil hsteps
        rw [htop, ← walk_append hsteps, hfirst]
        simp [walk_skip]
      rw [find_joins (by decide) hparts hsteps, hroot]
      exact walk_steps hsteps rfl
  | false =>
    rw [if_neg (by simp)]
    cases hsteps : p.steps with
    | nil => exact absurd (Path.components_of_steps_eq_nil hp habs hsteps) hways
    | cons first rest =>
      have hfirst := Path.ne_of_mem_steps (show first ∈ p.steps by simp [hsteps])
      rw [hsteps, List.forall_mem_cons] at hparts
      rw [Path.clean_eq_of_steps habs hsteps, find_joins_mk hparts.1 hfirst.1 hparts.2]
      exact walk_steps (by simp) hsteps

/-- What there is at a path is at the clean path too. -/
theorem find_clean_of_find (hways : p.components ≠ [.here])
    (h : fs.find false p = .ok (.taken loc n left)) :
    fs.find false p.clean = .ok (.taken loc n left) := by
  obtain ⟨hp, hnul⟩ := text_of_find h
  rcases fs.find_clean hp hnul hways with heq | heq
  · rw [← heq, h]
  · rw [heq] at h
    obtain ⟨goal, m, left', hclean⟩ := taken_of_goOn h
    rw [hclean, goOn_taken] at h
    obtain ⟨es, hat⟩ := isDir_of_walk h
    rw [walk_here hat] at h
    cases h
    rw [hclean, Option.some.inj ((at?_of_find hclean).symm.trans hat)]

/-- A directory at the clean path is at the path too. -/
theorem find_of_find_clean {es : List (String × Node)} (hp : p.text ≠ "")
    (hways : p.components ≠ [.here]) (h : fs.find false p.clean = .ok (.taken loc (.dir es) left)) :
    fs.find false p = .ok (.taken loc (.dir es) left) := by
  have hnul : '\x00' ∉ p.text.toList := fun hnul =>
    (text_of_find h).2 (Path.nul_mem_clean.2 hnul)
  rcases fs.find_clean hp hnul hways with heq | heq
  · rw [heq, h]
  · rw [heq, h, goOn_taken, walk_here (at?_of_find h)]

/-- Where nothing but dots is cleaned away nothing is left. -/
theorem clean_of_components_eq_here (h : p.components = [.here]) : p.clean = ⟨""⟩ := by
  rw [Path.clean, h]
  rfl

/-- There is nothing at a clean path where there is nothing at the path, unless it is a file
that the path takes for a directory; and where nothing but dots is cleaned away. -/
theorem exists_clean_eq_false_iff (hp : p.text ≠ "") :
    fs.exists p.clean = false ↔ p.components = [.here] ∨
      (fs.exists p = false ∧ (fs.node p.clean).toOption.all Node.isDir = true) := by
  by_cases hways : p.components = [.here]
  · rw [clean_of_components_eq_here hways]
    exact iff_of_true rfl (Or.inl hways)
  rw [or_iff_right hways]
  cases hclean : fs.exists p.clean with
  | false =>
    refine iff_of_true rfl ⟨Bool.eq_false_iff.2 fun hexists => ?_, ?_⟩
    · obtain ⟨loc, n, left, hfind⟩ := exists_iff.1 hexists
      have hclean' : fs.exists p.clean = true :=
        exists_iff.2 ⟨loc, n, left, find_clean_of_find hways hfind⟩
      exact absurd (hclean.symm.trans hclean') (by decide)
    · rw [toOption_node_eq_none_iff.2 hclean]
      rfl
  | true =>
    obtain ⟨loc, n, left, hfind⟩ := exists_iff.1 hclean
    have hnode : fs.node p.clean = .ok n := by rw [node, hfind]
    refine iff_of_false (by simp) ?_
    rintro ⟨hnot, hdir⟩
    obtain ⟨es, rfl⟩ : ∃ es, n = .dir es := by
      cases n with
      | dir es => exact ⟨es, rfl⟩
      | file bytes => simp [hnode, Except.toOption, Node.isDir] at hdir
      | link target => simp [hnode, Except.toOption, Node.isDir] at hdir
    have hexists : fs.exists p = true :=
      exists_iff.2 ⟨loc, _, left, find_of_find_clean hp hways hfind⟩
    exact absurd (hnot.symm.trans hexists) (by decide)

/-- A path of dots alone leads where one dot leads. -/
theorem find_of_components_eq_here (h : p.components = [.here]) :
    fs.find false p = fs.find false ⟨"."⟩ := by
  obtain ⟨habs, hdot⟩ := Path.here_mem_components_iff.1 (h ▸ List.mem_singleton_self _)
  have hp : p.text ≠ "" := by
    obtain ⟨text⟩ := p
    rintro rfl
    simp [Path.parts, splitAtSlash] at hdot
  have hnul : '\x00' ∉ p.text.toList := by
    rw [← Path.nul_mem_clean, clean_of_components_eq_here h]
    simp
  have hnone : ∀ part ∈ p.parts, Path.component? part = none := by
    rw [Path.components_eq, Path.lead, habs, hdot] at h
    exact List.filterMap_eq_nil_iff.1 (List.cons.inj h).2
  rw [find_eq hp hnul, habs, walk_skips hnone p.parts_ne_nil]
  rfl

/-- Dots alone lead to the working directory. -/
theorem exists_of_components_eq_here {es : List (String × Node)}
    (hat : fs.top.at? fs.workdir = some (.dir es)) (h : p.components = [.here]) :
    fs.exists p = true := by
  refine exists_iff.2 ⟨fs.workdir, .dir es, maxLinks, ?_⟩
  rw [find_of_components_eq_here h]
  exact walk_here hat

end FileSystem

/-! ## With more text -/

namespace Path

variable {p above : Path} {d : String}

theorem join_ne_empty (hp : p.text ≠ "") (d : String) : (p.join d).text ≠ "" := by
  by_cases hd : d.toList.head? = some '/'
  · rw [join, if_pos hd]
    rintro rfl
    cases hd
  · exact text_join_relative_ne_empty hp hd

/-- More text makes a path start at the top, never the other way round. -/
theorem isAbsolute_of_join (hp : p.text ≠ "") (h : (p.join d).isAbsolute = false) :
    p.isAbsolute = false := by
  by_cases hd : d.toList.head? = some '/'
  · rw [join, if_pos hd, isAbsolute] at h
    simp [hd] at h
  · rwa [isAbsolute_join_relative hp hd] at h

/-- What a path means with more text depends on its components alone. -/
theorem clean_join_congr (hp : p.text ≠ "") (hq : above.text ≠ "")
    (h : above.components = p.components) (d : String) :
    (above.join d).clean = (p.join d).clean := by
  by_cases hd : d.toList.head? = some '/'
  · simp [join, hd]
  · rw [clean, clean, components_join_relative hp hd, components_join_relative hq hd, h]

end Path

end ApexSyntax
