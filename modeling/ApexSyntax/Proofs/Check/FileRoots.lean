-- Roots that name files. Below a file nothing is found, so a check of it looks at no text:
-- it is clean and reports nothing, although the text of the file can be checked.
import ApexSyntax.Proofs.Check.Packages
import ApexSyntax.Proofs.Check.RootSpellings

namespace ApexSyntax

namespace FileSystem

variable {fs : FileSystem} {root : Path} {bytes : List UInt8} {kinds : List FileKind}

theorem node_of_read (h : fs.read root = .ok bytes) : fs.node root = .ok (.file bytes) := by
  unfold read at h
  split at h
  · next hnode => rw [hnode, Except.ok.inj h]
  · cases h
  · cases h

theorem isDir_of_file (h : fs.read root = .ok bytes) : fs.isDir root = false := by
  simp [isDir, node_of_read h, Except.toOption, Node.isDir]

/-- A file that can be read can be checked. -/
theorem exists_checkFile (h : fs.read root = .ok bytes) (base : Path) (k : FileKind) :
    ∃ found, checkSource (root.relative base) (Text.ofBytes bytes) k false = .ok found ∧
      fs.checkFile base root k = .ok found := by
  obtain ⟨found, hfound, -⟩ :=
    Parser.checkSource_failFast (root.relative base) (Text.ofBytes bytes) k
  exact ⟨found, hfound, by rw [checkFile, h]; exact hfound⟩

/-! ## Files of a directory -/

theorem infix_flatMap_of_mem {α β : Type} {l : List α} {a : α} (f : α → List β) (h : a ∈ l) :
    f a <:+: l.flatMap f := by
  rw [List.flatMap_def]
  exact List.infix_of_mem_flatten (List.mem_map_of_mem h)

/-- A check of a directory reports what a check of a file in it reports. -/
theorem checkFile_infix_checkKinds {dir : Path} {d : Node} {name : String} {k : FileKind}
    (hfs : fs.top.Proper) (hhere : .here ∉ dir.components) (hdir : fs.node dir = .ok d)
    (hname : d.child? name = some (.file bytes)) (hk : k ∈ kinds)
    (hkind : (dir.join name).hasKind k = true) :
    ∃ found, fs.checkFile dir (dir.join name) k = .ok found ∧
      found <:+: (fs.checkKinds dir kinds).1.errors := by
  obtain ⟨loc, n, left, hfind⟩ := exists_iff.1 (exists_of_node hdir)
  obtain rfl : n = d := by simpa [node, hfind] using hdir
  have hat := at?_of_find hfind
  have hentry := (hfs.at? hat).isEntryName (Node.mem_of_child? hname).2
  have htext := (text_of_find hfind).1
  have hone : n.at? [name] = some (.file bytes) := by simp [Node.at?, hname]
  have hcomponents : (dir.join name).components = dir.components ++ [name].map .name := by
    rw [Path.components_join htext hentry.toIsPart, Path.component?_eq_name hentry]
    rfl
  have hfile : fs.find false (dir.join name) =
      .ok (.taken (loc ++ [name]) (.file bytes) left) := by
    rw [find_join htext hentry.toIsPart, hfind, goOn_taken,
      walk_names hat (hfs.at? hat) hone (by simp)]
  have hread := read_of_find hfile
  have hroot : fs.isDir dir = true := by
    rw [isDir, hdir, (Node.mem_of_child? hname).1]
    rfl
  obtain ⟨base, d', hdir', hcovers⟩ := covers_of_notMem_here hfs hroot hhere
  obtain rfl := Except.ok.inj (hdir.symm.trans hdir')
  obtain ⟨report, hreport⟩ := hcovers.checkKinds_eq kinds
  have hsource : n.HasSource k [name] bytes :=
    ⟨hone, (Path.hasKind_iff k hcomponents (by simp)).1 hkind⟩
  refine ⟨report.found k [name], ?_, ?_⟩
  · rw [checkFile, hread, Path.relative_below hcomponents (by simpa using hentry) (by simp)]
    exact report.checked k [name] bytes hsource
  · rw [hreport]
    exact (infix_flatMap_of_mem (report.found k)
      ((report.mem_files_iff k [name]).2 ⟨bytes, hsource⟩)).trans
        (infix_flatMap_of_mem (fun k => (report.files k).flatMap (report.found k)) hk)

/-! ## Files as roots -/

/-- A check of a root that names a file is clean and looks at no file, and so is a check of the
project there. It reports what a check of the file reports only where that reports nothing. A
check of the directory that holds the file does report it. -/
theorem file_roots_unchecked {extensions : List String} {kinds : List FileKind}
    (hfs : fs.top.Proper) (hfile : fs.read root = .ok bytes)
    (hkinds : kinds.map FileKind.extension =
      if extensions = [] then [".cls", ".trigger"] else extensions.map FileKind.dotted) :
    fs.checkPath root extensions =
        (⟨.clean, kinds.map FileKind.extension, []⟩, kinds.map fun k => .parsedFiles 0 k root) ∧
    (∀ depth, (fs.checkProject root extensions depth).1 =
      [⟨fs.projectName root, ".", none, (fs.checkPath root extensions).1⟩]) ∧
    (∀ (base : Path) (k : FileKind), ∃ found,
      checkSource (root.relative base) (Text.ofBytes bytes) k false = .ok found ∧
      fs.checkFile base root k = .ok found ∧
      ((fs.checkPath root extensions).1.errors = found ↔ found = [])) ∧
    ∀ dir name d k, root = dir.join name → .here ∉ dir.components → fs.node dir = .ok d →
      d.child? name = some (.file bytes) → k ∈ kinds → root.hasKind k = true →
      ∃ found, fs.checkFile dir root k = .ok found ∧
        found <:+: (fs.checkPath dir extensions).1.errors := by
  have hrequest := FileKind.requested_eq_ok hkinds
  have hcheck : ∀ p, fs.checkPath p extensions = fs.checkKinds p kinds := fun p => by
    rw [checkPath, hrequest]
  have hclean := (hcheck root).trans (checkKinds_of_not_isDir (node_of_read hfile) rfl)
  refine ⟨hclean, fun depth => ?_, fun base k => ?_, fun dir name d k hroot hhere hdir hname hk
    hkind => ?_⟩
  · rw [checkProject, hrequest, hcheck]
    simp [isDir_of_file hfile, wholeResult]
  · obtain ⟨found, hsource, hfound⟩ := exists_checkFile hfile base k
    refine ⟨found, hsource, hfound, ?_⟩
    rw [hclean]
    exact eq_comm
  · subst hroot
    rw [hcheck]
    exact checkFile_infix_checkKinds hfs hhere hdir hname hk hkind

/-- The class that lacks its last brace is reported below its directory, and not by itself. -/
theorem file_roots_unchecked_oneClass :
    oneClass.top.Proper ∧ oneClass.read ⟨"src/A.cls"⟩ = .ok "class A \x7b".toUTF8.toList ∧
    FileKind.default.map FileKind.extension = [".cls", ".trigger"] ∧
    (oneClass.checkPath ⟨"src/A.cls"⟩ []).1 = ⟨.clean, [".cls", ".trigger"], []⟩ ∧
    oneClass.checkFile ⟨"src"⟩ ⟨"src/A.cls"⟩ .classFile =
      .ok [⟨10, 1, "missing '\x7d' at '<EOF>'", "A.cls"⟩] ∧
    [⟨10, 1, "missing '\x7d' at '<EOF>'", "A.cls"⟩] <:+:
      (oneClass.checkPath ⟨"src"⟩ []).1.errors := by
  have hfile : oneClass.read ⟨"src/A.cls"⟩ = .ok "class A \x7b".toUTF8.toList := rfl
  have hkinds : FileKind.default.map FileKind.extension =
      if ([] : List String) = [] then [".cls", ".trigger"] else [].map FileKind.dotted := rfl
  have hchecked : oneClass.checkFile ⟨"src"⟩ ⟨"src/A.cls"⟩ .classFile =
      .ok [⟨10, 1, "missing '\x7d' at '<EOF>'", "A.cls"⟩] := by
    decide +kernel
  obtain ⟨hclean, -, -, hdir⟩ := file_roots_unchecked proper_oneClass hfile hkinds
  obtain ⟨found, hfound, hreported⟩ := hdir ⟨"src"⟩ "A.cls" _ .classFile (by decide +kernel)
    (by decide +kernel) rfl rfl (by decide) (by decide +kernel)
  cases hchecked.symm.trans hfound
  exact ⟨proper_oneClass, hfile, rfl, by rw [hclean]; rfl, hchecked, hreported⟩

/-- The report on a file given as the root is empty, where the file has an error. -/
theorem file_root_reports_nothing :
    ¬ ∀ (fs : FileSystem) (root : Path) (k : FileKind) (found : List Diagnostic),
      fs.top.Proper → root.hasKind k = true → fs.checkFile root root k = .ok found →
      (fs.checkPath root [k.extension]).1.status = .clean →
      (fs.checkPath root [k.extension]).1.errors = found := by
  intro h
  have hchecked : oneClass.checkFile ⟨"src/A.cls"⟩ ⟨"src/A.cls"⟩ .classFile =
      .ok [⟨10, 1, "missing '\x7d' at '<EOF>'", "."⟩] := by
    decide +kernel
  have hnone : (oneClass.checkPath ⟨"src/A.cls"⟩ [FileKind.classFile.extension]).1 =
      ⟨.clean, [".cls"], []⟩ := by
    decide +kernel
  have hsame := h oneClass ⟨"src/A.cls"⟩ .classFile _ proper_oneClass (by decide +kernel) hchecked
    (by rw [hnone])
  rw [hnone] at hsame
  cases hsame

end FileSystem

end ApexSyntax
