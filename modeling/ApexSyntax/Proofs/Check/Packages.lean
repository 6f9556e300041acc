-- Checking the packages of a project: each declared package is checked by itself at its
-- clean path. So what it gives depends on nothing but what stands there; and it is missing
-- where nothing stands there, which is not quite where its declared path leads nowhere.
import ApexSyntax.Check.Project
import ApexSyntax.Proofs.Check.Directories
import ApexSyntax.Proofs.FileSystem.Parents
import ApexSyntax.Proofs.FileSystem.Descriptors
import ApexSyntax.Proofs.FileSystem.Links

namespace ApexSyntax

/-! ## What a check depends on -/

namespace FileSystem

variable {fs fs' : FileSystem} {p root : Path} {kinds : List FileKind}

/-- Below anything but a directory there are no files. -/
theorem filesBelow_eq_nil {n : Node} (h : fs.node p = .ok n) (hdir : n.isDir = false) :
    fs.filesBelow p = [] := by
  obtain ⟨loc, m, left, hfind⟩ := exists_iff.1 (exists_of_node h)
  obtain rfl : m = n := by simpa [node, hfind] using h
  rw [filesBelow]
  cases hbase : fs.searchBase? p with
  | none => rfl
  | some base =>
    simp only [(begins_of_searchBase? hfind hbase).find, hfind]
    cases m with
    | dir es => cases hdir
    | file bytes => rfl
    | link target => rfl

/-- A check of no files tells of each kind that it has none. -/
theorem checkFiles_nil (kinds : List FileKind) (s : Progress) :
    fs.checkFiles p [] kinds s =
      ({ s with events := s.events ++ kinds.map fun k => .parsedFiles 0 k p }, none) := by
  induction kinds generalizing s with
  | nil => simp [checkFiles]
  | cons kind rest ih => simp [checkFiles, checkEach, ih, Progress.tell]

/-- A check of anything but a directory finds nothing. -/
theorem checkKinds_of_not_isDir {n : Node} (h : fs.node p = .ok n) (hdir : n.isDir = false) :
    fs.checkKinds p kinds =
      (⟨.clean, kinds.map FileKind.extension, []⟩, kinds.map fun k => .parsedFiles 0 k p) := by
  rw [checkKinds, if_pos (exists_of_node h), filesBelow_eq_nil h hdir, checkFiles_nil]
  simp

/-- A check is missing exactly where there is nothing. -/
theorem status_checkKinds_eq_missing_iff :
    (fs.checkKinds p kinds).1.status = .missing ↔ fs.exists p = false := by
  cases hexists : fs.exists p with
  | false => simp [checkKinds, hexists]
  | true =>
    simp only [checkKinds, hexists, if_true]
    split <;> simp

end FileSystem

/-- The paths that a descriptor declares, with slashes. Directories without a path are
dropped. -/
def Descriptor.paths (d : Descriptor) : List String :=
  (d.directories.filterMap (·.path)).map Path.slashed

namespace FileSystem

/-- A descriptor that declares packages is found from a root. -/
structure IsProject (fs : FileSystem) (root : Path) (depth : Nat) (descriptor : Path)
    (d : Descriptor) : Prop where
  found : fs.findDescriptor root depth = .ok (some descriptor)
  read : fs.readDescriptor descriptor = .ok d
  declares : d.paths ≠ []

/-- The directory that holds a descriptor, at a root or below it. -/
structure Holds (fs : FileSystem) (root dir descriptor : Path) : Prop where
  below : ∃ names : Location, (∀ name ∈ names, IsEntryName name) ∧ dir = names.foldl Path.join root
  descriptor : descriptor = dir.join descriptorName
  isDir : fs.isDir dir = true

variable {fs fs' : FileSystem} {p root dir descriptor : Path} {depth : Nat} {d : Descriptor}
  {declared : String}

theorem exists_holds (hfs : fs.top.Proper)
    (h : fs.findDescriptor root depth = .ok (some descriptor)) :
    fs.isDir root = true ∧ ∃ dir, fs.Holds root dir descriptor := by
  obtain ⟨es, hnode, names, hnames, rfl⟩ : ∃ es, fs.node root = .ok (.dir es) ∧
      ∃ names, (Node.dir es).descriptor? depth = some names ∧
        names.foldl Path.join root = descriptor := by
    unfold findDescriptor at h
    split at h
    · cases h
    · next es hnode => exact ⟨es, hnode, Option.map_eq_some_iff.1 (Except.ok.inj h)⟩
    · cases h
  have hroot : fs.isDir root = true := by simp [isDir, hnode, Except.toOption, Node.isDir]
  obtain ⟨loc, es', left, hfind, hnode'⟩ := find_of_isDir hroot
  cases hnode.symm.trans hnode'
  have hproper := hfs.at? (at?_of_find hfind)
  obtain ⟨above, below, rfl, hat⟩ := Node.exists_dir_of_descriptor? hproper hnames
  refine ⟨hroot, _, ⟨above, hproper.isEntryName_of_at? hat, rfl⟩, ?_,
    isDir_of_find (find_joins_of_at? hfs hfind hat)⟩
  rw [List.foldl_append]
  rfl

theorem isEntryName_descriptorName : IsEntryName descriptorName := by decide

theorem Holds.text (h : fs.Holds root dir descriptor) : dir.text ≠ "" := by
  obtain ⟨loc, es, left, hfind, -⟩ := find_of_isDir h.isDir
  exact (text_of_find hfind).1

/-- A declared package is at the clean path of its declared path in the descriptor's
directory. -/
theorem Holds.package_eq (h : fs.Holds root dir descriptor) (declared : String) :
    Package.ofDeclared descriptor declared = ⟨declared, (dir.join declared).clean⟩ := by
  obtain ⟨above, habove, htext, hcomponents⟩ :=
    Path.parent?_join h.text isEntryName_descriptorName
  rw [Package.ofDeclared, h.descriptor, habove, Option.getD_some,
    Path.clean_join_congr h.text htext hcomponents]

/-! ## The results of a project -/

variable {kinds : List FileKind} {extensions : List String}

/-- The result of a declared package: what a check of its path by itself gives. -/
def packageResult (fs : FileSystem) (root dir : Path) (extensions : List String)
    (declared : String) : PackageResult where
  name := fs.projectName root
  path := (dir.join declared).clean.relative root.clean
  package := some declared
  result := (fs.checkPath (dir.join declared).clean extensions).1

theorem checkProject_eq (hrequest : FileKind.requested extensions = .ok kinds)
    (hproject : fs.IsProject root depth descriptor d) (hroot : fs.isDir root = true)
    (hdir : fs.Holds root dir descriptor) :
    (fs.checkProject root extensions depth).1 =
      d.paths.map (fs.packageResult root dir extensions) := by
  have hcheck : ∀ declared, (fs.checkPackage (fs.projectName root) root kinds
      ⟨declared, (dir.join declared).clean⟩).1 = fs.packageResult root dir extensions declared := by
    intro declared
    simp only [checkPackage, packageResult, checkPath, hrequest]
  obtain ⟨found, hfound⟩ : ∃ found : List Package,
      d.paths.map (fun declared => ⟨declared, (dir.join declared).clean⟩) = found := ⟨_, rfl⟩
  have hpackages : fs.projectPackages root depth = .ok found := by
    rw [projectPackages, hproject.found, ← hfound]
    simp only [packages, declaredPaths, hproject.read, Except.map, Descriptor.paths,
      funext hdir.package_eq]
  have hresults : (found.map (fs.checkPackage (fs.projectName root) root kinds)).map (·.1) =
      d.paths.map (fs.packageResult root dir extensions) := by
    rw [← hfound, List.map_map, List.map_map]
    exact List.map_congr_left fun declared _ => hcheck declared
  obtain ⟨first, rest, rfl⟩ := List.exists_cons_of_ne_nil (show found ≠ [] by
    simpa [← hfound] using hproject.declares)
  rw [← hresults, checkProject, hrequest]
  simp only [hroot, if_true, hpackages]

/-- A descriptor of a directory, its own directory, and a directory that is not there. -/
def threeDirectories : String :=
  "\x7b\"packageDirectories\": [\x7b\"path\": \"a\"\x7d, \x7b\"path\": \".\"\x7d, " ++
    "\x7b\"path\": \"b\"\x7d]\x7d"

def threePackages : FileSystem where
  top := .dir [("a", .dir [("A.cls", .file "class A \x7b".toUTF8.toList)]),
    (descriptorName, .file threeDirectories.toUTF8.toList)]
  workdir := []

theorem proper_threePackages : threePackages.top.Proper := by
  refine .dir (by decide) (by decide) (List.forall_mem_cons.2 ⟨?_, ?_⟩)
  · exact .dir (by decide) (by decide) (List.forall_mem_singleton.2 (.file _))
  · exact List.forall_mem_singleton.2 (.file _)

theorem isProject_threePackages :
    threePackages.IsProject ⟨"."⟩ 0 ⟨"./sfdx-project.json"⟩
      ⟨[⟨some "a"⟩, ⟨some "."⟩, ⟨some "b"⟩]⟩ where
  found := rfl
  read := by
    have hread : threePackages.read ⟨"./sfdx-project.json"⟩ =
        .ok threeDirectories.toUTF8.toList := rfl
    have htext : Text.ofBytes? threeDirectories.toUTF8.toList = some threeDirectories := by
      decide +kernel
    have hjson : Descriptor.read? threeDirectories =
        some ⟨[⟨some "a"⟩, ⟨some "."⟩, ⟨some "b"⟩]⟩ := by
      decide +kernel
    simp only [readDescriptor, hread, htext, hjson]
  declares := by decide

/-- A path made of dots leads to the directory that one stands in. -/
theorem Holds.exists_of_components_eq_here (hdir : fs.Holds root dir descriptor)
    (h : (dir.join declared).components = [.here]) : fs.exists (dir.join declared) = true := by
  obtain ⟨loc, es, left, hfind, -⟩ := find_of_isDir hdir.isDir
  obtain ⟨htext, hnul⟩ := text_of_find hfind
  have habs := Path.isAbsolute_of_join htext (Path.isAbsolute_eq_false h (by simp))
  obtain ⟨first, rest, hfirst⟩ := List.exists_cons_of_ne_nil dir.parts_ne_nil
  rw [find_eq htext hnul, habs, hfirst] at hfind
  obtain ⟨es', hat⟩ := isDir_of_walk hfind
  exact FileSystem.exists_of_components_eq_here hat h

/-- A declared package is missing where its path leads nowhere, unless the path takes a file for
a directory. And it is missing where its path in the descriptor's directory is made of dots,
although that leads to a directory. -/
theorem package_missing_iff {extensions : List String} {kinds : List FileKind}
    (hfs : fs.top.Proper)
    (hkinds : kinds.map FileKind.extension =
      if extensions = [] then [".cls", ".trigger"] else extensions.map FileKind.dotted)
    (hproject : fs.IsProject root depth descriptor d) :
    ∃ dir, fs.Holds root dir descriptor ∧
      ∀ (i : Nat) (declared : String), d.paths[i]? = some declared →
        ∃ r, (fs.checkProject root extensions depth).1[i]? = some r ∧
          r.package = some declared ∧
          (r.status = .missing ↔ (dir.join declared).components = [.here] ∨
            (fs.exists (dir.join declared) = false ∧
              (fs.node (dir.join declared).clean).toOption.all Node.isDir = true)) ∧
          ((dir.join declared).components = [.here] →
            fs.exists (dir.join declared) = true) := by
  have hrequest := FileKind.requested_eq_ok hkinds
  obtain ⟨hroot, dir, hdir⟩ := exists_holds hfs hproject.found
  refine ⟨dir, hdir, fun i declared hi => ⟨fs.packageResult root dir extensions declared, ?_, rfl,
    ?_, hdir.exists_of_components_eq_here⟩⟩
  · rw [checkProject_eq hrequest hproject hroot hdir, List.getElem?_map, hi, Option.map_some]
  · rw [← exists_clean_eq_false_iff (Path.join_ne_empty hdir.text declared),
      ← @status_checkKinds_eq_missing_iff fs (dir.join declared).clean kinds]
    simp only [PackageResult.status, packageResult, checkPath, hrequest]

theorem package_missing_iff_threePackages :
    threePackages.top.Proper ∧
    threePackages.IsProject ⟨"."⟩ 0 ⟨"./sfdx-project.json"⟩
      ⟨[⟨some "a"⟩, ⟨some "."⟩, ⟨some "b"⟩]⟩ ∧
    FileKind.default.map FileKind.extension = [".cls", ".trigger"] ∧
    ∃ dir, threePackages.Holds ⟨"."⟩ dir ⟨"./sfdx-project.json"⟩ ∧
      ∃ r, (threePackages.checkProject ⟨"."⟩ [] 0).1[2]? = some r ∧
        r.package = some "b" ∧
        (r.status = .missing ↔ (dir.join "b").components = [.here] ∨
          (threePackages.exists (dir.join "b") = false ∧
            (threePackages.node (dir.join "b").clean).toOption.all Node.isDir = true)) := by
  have hkinds : FileKind.default.map FileKind.extension =
      if ([] : List String) = [] then [".cls", ".trigger"] else [].map FileKind.dotted := rfl
  obtain ⟨dir, hdir, hpackages⟩ :=
    package_missing_iff proper_threePackages hkinds isProject_threePackages
  obtain ⟨r, hr, hpackage, hmissing, -⟩ := hpackages 2 "b" rfl
  exact ⟨proper_threePackages, isProject_threePackages, rfl, dir, hdir, r, hr, hpackage, hmissing⟩

/-- The directory of the descriptor is there, but as a package it is missing. -/
theorem own_directory_missing :
    threePackages.exists ((Path.mk ".").join ".") = true ∧
    (threePackages.checkProject ⟨"."⟩ [] 0).1.map (fun r => (r.package, r.status)) =
      [(some "a", .clean), (some ".", .missing), (some "b", .missing)] := by
  decide +kernel

end FileSystem

end ApexSyntax
