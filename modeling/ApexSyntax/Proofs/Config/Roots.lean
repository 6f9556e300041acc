-- Which directory configures a path: the closest marked one of those that the text of the path
-- names, from the path upwards. From the top of the tree the text names all directories above
-- the path. Otherwise it ends below the working directory, unless a dot leads it.
import ApexSyntax.Config.Settings
import ApexSyntax.Proofs.FileSystem.Parents

namespace ApexSyntax

/-! ## The paths of a search -/

namespace Path

variable {p q above : Path} {limit : Nat}

/-- A search goes on at the path above, unless one component is left. -/
theorem lineage_cases (hp : p.text ≠ "") (limit : Nat) :
    (p.components.length = 1 ∧ p.lineage (limit + 1) = [p]) ∨
      ∃ above : Path, above.text ≠ "" ∧ above.components = p.components.dropLast ∧
        p.lineage (limit + 1) = p :: above.lineage limit := by
  have hpos : 0 < p.components.length := List.length_pos_iff.2 (mt components_eq_nil_iff.1 hp)
  rcases parent?_cases hp with ⟨hnone, htop⟩ | ⟨above, habove, hdrop⟩
  · exact Or.inl ⟨by simp [htop], by simp [lineage, hnone]⟩
  · by_cases htext : above.text = ""
    · left
      have hlength := congrArg List.length (hdrop.symm.trans (components_eq_nil_iff.2 htext))
      rw [List.length_dropLast, List.length_nil] at hlength
      exact ⟨by omega, by simp [lineage, habove, htext]⟩
    · exact Or.inr ⟨above, htext, hdrop, by simp [lineage, habove, htext]⟩

theorem atOrAbove_of_mem_lineage (hp : p.text ≠ "") (h : q ∈ p.lineage limit) : q.AtOrAbove p := by
  induction limit generalizing p with
  | zero =>
    obtain rfl := List.mem_singleton.1 h
    exact .refl hp
  | succ limit ih =>
    rcases lineage_cases hp limit with ⟨-, hone⟩ | ⟨above, htext, hdrop, hmore⟩
    · obtain rfl := List.mem_singleton.1 (hone ▸ h)
      exact .refl hp
    · rw [hmore] at h
      rcases List.mem_cons.1 h with rfl | h
      · exact .refl hp
      · exact (ih htext h).of_above hdrop

/-- A search comes by every path at or above, in some spelling. -/
theorem AtOrAbove.exists_mem_lineage (h : q.AtOrAbove p)
    (hlimit : p.components.length ≤ limit + 1) :
    ∃ r ∈ p.lineage limit, r.components = q.components := by
  have hpos : 0 < q.components.length := List.length_pos_iff.2 h.components_ne_nil
  induction limit generalizing p with
  | zero => exact ⟨p, by simp [lineage], (h.front.eq_of_length_le (by omega)).symm⟩
  | succ limit ih =>
    rcases lineage_cases h.text_below limit with ⟨hone, hlineage⟩ | ⟨above, -, hdrop, hlineage⟩
    · exact ⟨p, by simp [hlineage], (h.front.eq_of_length_le (by omega)).symm⟩
    · rw [hlineage]
      rcases h.cases_above hdrop with hsame | hq
      · exact ⟨p, List.mem_cons_self, hsame.symm⟩
      · have hlength : above.components.length ≤ limit + 1 := by
          rw [hdrop, List.length_dropLast]
          omega
        obtain ⟨r, hr, hcomponents⟩ := ih hq hlength
        exact ⟨r, List.mem_cons_of_mem _ hr, hcomponents⟩

/-- A search only goes up. -/
theorem pairwise_lineage (hp : p.text ≠ "") (limit : Nat) :
    (p.lineage limit).Pairwise fun q r => r.AtOrAbove q := by
  induction limit generalizing p with
  | zero => exact List.pairwise_singleton ..
  | succ limit ih =>
    rcases lineage_cases hp limit with ⟨-, hone⟩ | ⟨above, htext, hdrop, hmore⟩
    · rw [hone]
      exact List.pairwise_singleton ..
    · rw [hmore, List.pairwise_cons]
      exact ⟨fun r hr => (atOrAbove_of_mem_lineage htext hr).of_above hdrop, ih htext⟩

theorem length_components_le (p : Path) : p.components.length ≤ p.parts.length + 1 := by
  rw [components_eq, List.length_append, Nat.add_comm]
  exact Nat.add_le_add (List.length_filterMap_le ..) p.length_lead_le

end Path

namespace FileSystem

variable {fs : FileSystem} {start dir p q : Path}

/-! ## Marked directories -/

/-- What marks the directory where a search ends. -/
def configMarks : List String := ["apexcheck.toml", "apexcheck.yaml", "apexcheck.yml", ".git"]

def Marked (fs : FileSystem) (dir : Path) : Prop :=
  ∃ name ∈ configMarks, fs.exists (dir.join name) = true

theorem isConfigRoot_iff : fs.isConfigRoot dir = true ↔ fs.Marked dir := by
  simp [isConfigRoot, Marked, configMarks, configFiles, or_assoc]

theorem marked_congr (hp : p.text ≠ "") (hq : q.text ≠ "") (h : q.components = p.components) :
    fs.Marked q ↔ fs.Marked p := by
  have hnames : ∀ name ∈ configMarks, IsEntryName name := by decide
  refine exists_congr fun name => and_congr_right fun hname => ?_
  rw [exists_join_congr hp hq h (hnames name hname).toIsPart]

/-- The directory is the closest marked one, from a path upwards: every other one is above it. -/
structure IsClosest (fs : FileSystem) (start dir : Path) : Prop where
  above : dir.AtOrAbove start
  marked : fs.Marked dir
  closest : ∀ q, q.AtOrAbove start → fs.Marked q → q.AtOrAbove dir

/-- A search comes by every marked directory, in some spelling. -/
theorem exists_isConfigRoot (hq : q.AtOrAbove start) (hmarked : fs.Marked q) :
    ∃ r ∈ start.selfAndAbove, r.components = q.components ∧ fs.isConfigRoot r = true := by
  obtain ⟨r, hr, hcomponents⟩ := hq.exists_mem_lineage start.length_components_le
  have htext := (Path.atOrAbove_of_mem_lineage hq.text_below hr).text
  exact ⟨r, hr, hcomponents,
    isConfigRoot_iff.2 ((marked_congr hq.text htext hcomponents).2 hmarked)⟩

/-- A search gives the closest marked directory, or its start where none is marked. -/
theorem configRoot_cases (hstart : start.text ≠ "") :
    fs.IsClosest start (fs.configRoot start) ∨
      (fs.configRoot start = start ∧ ∀ q, q.AtOrAbove start → ¬ fs.Marked q) := by
  cases hfind : start.selfAndAbove.find? fs.isConfigRoot with
  | none =>
    right
    refine ⟨by rw [configRoot, hfind]; rfl, fun q hq hmarked => ?_⟩
    obtain ⟨r, hr, -, hroot⟩ := exists_isConfigRoot hq hmarked
    exact List.find?_eq_none.1 hfind r hr hroot
  | some dir =>
    left
    rw [configRoot, hfind, Option.getD_some]
    obtain ⟨hdir, front, back, hpaths, hfront⟩ := List.find?_eq_some_iff_append.1 hfind
    have habove : dir.AtOrAbove start :=
      Path.atOrAbove_of_mem_lineage hstart (List.mem_of_find?_eq_some hfind)
    refine ⟨habove, isConfigRoot_iff.1 hdir, fun q hq hmarked => ?_⟩
    obtain ⟨r, hr, hcomponents, hroot⟩ := exists_isConfigRoot hq hmarked
    have hpairwise : start.selfAndAbove.Pairwise fun q r => r.AtOrAbove q :=
      Path.pairwise_lineage hstart _
    rw [hpaths, List.pairwise_append, List.pairwise_cons] at hpairwise
    rw [hpaths, List.mem_append, List.mem_cons] at hr
    have hbelow : r.AtOrAbove dir := by
      rcases hr with hr | rfl | hr
      · have hnot := hfront r hr
        simp [hroot] at hnot
      · exact .refl habove.text
      · exact hpairwise.2.1.1 r hr
    exact ⟨hq.text, hcomponents ▸ hbelow.front⟩

/-! ## The configuration root -/

/-- From a directory a search gives the closest marked directory of those that the text of the
start names, or the start where none of them is marked. All of them are directories, and where
the names down to the start lead through no link they stand at or above it. From a path that
starts at the top of the tree the search goes up to the top. From any other path it comes to
the working directory only where a dot leads the path. -/
theorem configRoot_isClosest (hfs : fs.top.Proper) (hstart : fs.isDir start = true) :
    (fs.IsClosest start (fs.configRoot start) ∨
      (fs.configRoot start = start ∧ ∀ q, q.AtOrAbove start → ¬ fs.Marked q)) ∧
    (start.isAbsolute = true → (Path.mk "/").AtOrAbove start) ∧
    ((Path.mk ".").AtOrAbove start ↔ .here ∈ start.components) ∧
    ∀ q, q.AtOrAbove start → fs.isDir q = true ∧
      ∀ d names, fs.node q = .ok d → start.components = q.components ++ names.map .name →
        (d.at? names).any Node.isDir = true →
        fs.realLocation? start = (fs.realLocation? q).map (· ++ names) := by
  obtain ⟨loc, es, left, hfind, -⟩ := find_of_isDir hstart
  have htext := (text_of_find hfind).1
  exact ⟨configRoot_cases htext, Path.top_atOrAbove, Path.here_atOrAbove_iff, fun q hq =>
    ⟨isDir_of_atOrAbove hq hstart, fun d names hnode hcomponents hnames =>
      realLocation?_of_atOrAbove hfs htext hnode hcomponents hnames⟩⟩

/-- A configuration two directories above another directory. -/
def configAtTop : FileSystem where
  top := .dir [("apexcheck.toml", .file "output = \"json\"".toUTF8.toList),
    ("sub", .dir [("dir", .dir [])])]
  workdir := []

theorem proper_configAtTop : configAtTop.top.Proper := by
  refine .dir (by decide) (by decide) (List.forall_mem_cons.2 ⟨.file _, ?_⟩)
  refine List.forall_mem_singleton.2 (.dir (by decide) (by decide) ?_)
  exact List.forall_mem_singleton.2 (.dir (by decide) (by decide) (by simp))

/-- From the top of the tree the directory is configured there. -/
theorem configRoot_isClosest_configAtTop :
    configAtTop.top.Proper ∧ configAtTop.isDir ⟨"/sub/dir"⟩ = true ∧
    configAtTop.configRoot ⟨"/sub/dir"⟩ = ⟨"/"⟩ ∧ configAtTop.IsClosest ⟨"/sub/dir"⟩ ⟨"/"⟩ := by
  have hdir : configAtTop.isDir ⟨"/sub/dir"⟩ = true := by decide +kernel
  have hroot : configAtTop.configRoot ⟨"/sub/dir"⟩ = ⟨"/"⟩ := by decide +kernel
  obtain ⟨hclosest | ⟨hself, -⟩, -⟩ := configRoot_isClosest proper_configAtTop hdir
  · exact ⟨proper_configAtTop, hdir, hroot, hroot ▸ hclosest⟩
  · exact absurd (hroot.symm.trans hself) (by decide)

/-- By its names alone the directory is not configured, although the working directory, which
is two directories above it, is marked. -/
theorem marked_workdir_passed_over :
    ¬ ∀ (fs : FileSystem) (start : Path) (names : List String), fs.top.Proper →
      fs.isDir start = true → start.components = names.map .name → fs.Marked ⟨"."⟩ →
      fs.Marked (fs.configRoot start) := by
  intro h
  have hmarked := h configAtTop ⟨"sub/dir"⟩ ["sub", "dir"] proper_configAtTop (by decide +kernel)
    (by decide +kernel) (isConfigRoot_iff.1 (by decide +kernel))
  have hroot : configAtTop.isConfigRoot (configAtTop.configRoot ⟨"sub/dir"⟩) = false := by
    decide +kernel
  exact absurd (hroot.symm.trans (isConfigRoot_iff.2 hmarked)) (by decide)

end FileSystem

end ApexSyntax
