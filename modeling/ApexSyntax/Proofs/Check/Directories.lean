-- What a check of a directory reports: kind by kind, and for each kind in the order of
-- their names, the errors of every file of the kind that stands below the directory and
-- behind no link.
import ApexSyntax.Check.Files
import ApexSyntax.Proofs.FileSystem.FilesBelow
import ApexSyntax.Proofs.Parser.FailFast
import Mathlib.Data.List.Sort

namespace ApexSyntax

/-! ## Kinds and extensions -/

/-- A name has an extension where a stem, a dot and the extension make it up. -/
theorem Path.extensionOf?_eq_some_iff {name e : String} :
    extensionOf? name = some e ↔
      '.' ∉ e.toList ∧ ∃ stem, stem ≠ "" ∧ name = stem ++ ("." ++ e) := by
  -- The extension is what stands before the first dot of the name read from its end.
  have hback : ∀ (tail front : List Char), '.' ∉ tail →
      (tail ++ '.' :: front).takeWhile (· ≠ '.') = tail ∧
        (tail ++ '.' :: front).dropWhile (· ≠ '.') = '.' :: front := by
    intro tail front h
    have hall : ∀ c ∈ tail, decide (c ≠ '.') = true := fun c hc => by
      simpa using fun heq : c = '.' => h (heq ▸ hc)
    rw [List.takeWhile_append_of_pos hall, List.dropWhile_append_of_pos hall]
    simp
  constructor
  · intro h
    by_cases hdot : '.' ∈ name.toList.reverse
    · obtain ⟨tail, front, hname, htail⟩ := List.eq_append_cons_of_mem hdot
      obtain ⟨htake, hdrop⟩ := hback tail front htail
      simp only [extensionOf?, hname, htake, hdrop] at h
      cases front with
      | nil => cases h
      | cons c front =>
        cases h
        refine ⟨by simpa using htail, String.ofList (c :: front).reverse, by simp, ?_⟩
        rw [← String.toList_inj, ← List.reverse_inj, hname]
        simp
    · have hall : ∀ c ∈ name.toList.reverse, decide (c ≠ '.') = true := fun c hc => by
        simpa using fun heq : c = '.' => hdot (heq ▸ hc)
      have hdrop : (name.toList.reverse ++ []).dropWhile (· ≠ '.') = [] :=
        List.dropWhile_append_of_pos hall
      rw [List.append_nil] at hdrop
      simp only [extensionOf?, hdrop] at h
      cases h
  · rintro ⟨he, stem, hstem, rfl⟩
    obtain ⟨c, front, hfront⟩ := List.exists_cons_of_ne_nil
      (show stem.toList.reverse ≠ [] by simpa using hstem)
    have hname : (stem ++ ("." ++ e)).toList.reverse = e.toList.reverse ++ '.' :: c :: front := by
      simp [← hfront]
    obtain ⟨htake, hdrop⟩ := hback e.toList.reverse (c :: front) (by simpa using he)
    simp only [extensionOf?, hname, htake, hdrop]
    simp

namespace FileKind

theorem extension_eq (k : FileKind) : ∃ e : String, '.' ∉ e.toList ∧ k.extension = "." ++ e := by
  cases k with
  | classFile => exact ⟨"cls", by decide, by decide⟩
  | triggerFile => exact ⟨"trigger", by decide, by decide⟩
  | script => exact ⟨"apex", by decide, by decide⟩

theorem extension_inj {k k' : FileKind} (h : k.extension = k'.extension) : k = k' :=
  Option.some.inj (by rw [← ofExtension?_extension k, ← ofExtension?_extension k', h])

theorem dotted_extension (k : FileKind) : dotted k.extension = k.extension := by
  cases k <;> decide

theorem ofExtension?_of_dotted {written : String} {k : FileKind}
    (h : k.extension = dotted written) : ofExtension? written = some k := by
  rw [← ofExtension?_extension k, ofExtension?, ofExtension?, ← h, dotted_extension]

theorem ofExtensions_eq_ok {written : List String} {kinds : List FileKind}
    (h : kinds.map extension = written.map dotted) : ofExtensions written = .ok kinds := by
  induction written generalizing kinds with
  | nil =>
    cases kinds with
    | nil => rfl
    | cons k rest => simp at h
  | cons e rest ih =>
    cases kinds with
    | nil => simp at h
    | cons k kinds =>
      simp only [List.map_cons, List.cons.injEq] at h
      simp only [ofExtensions, ofExtension?_of_dotted h.1, ih h.2]
      rfl

/-- A request without extensions is for the default kinds, any other for the kinds that its
extensions are the extensions of. -/
theorem requested_eq_ok {extensions : List String} {kinds : List FileKind}
    (h : kinds.map extension =
      if extensions = [] then [".cls", ".trigger"] else extensions.map dotted) :
    requested extensions = .ok kinds := by
  cases extensions with
  | nil =>
    have hdefault : kinds.map extension = default.map extension := by rw [h]; rfl
    rw [(List.map_inj_right fun _ _ => extension_inj).1 hdefault]
    rfl
  | cons e rest => exact ofExtensions_eq_ok (by simpa using h)

end FileKind

/-! ## The errors of the files -/

/-- A file of a kind below a directory: no link leads to it, and its name is more than the
extension of the kind, but ends with it. -/
structure Node.HasSource (dir : Node) (k : FileKind) (names : Location) (bytes : List UInt8) :
    Prop where
  file : dir.at? names = some (.file bytes)
  kind : ∃ stem, stem ≠ "" ∧ names.getLast? = some (stem ++ k.extension)

theorem FileKind.extension_of_name {stem : String} (k : FileKind) (hstem : stem ≠ "") :
    (Path.extensionOf? (stem ++ k.extension)).map ("." ++ ·) = some k.extension := by
  obtain ⟨e, he, hk⟩ := k.extension_eq
  rw [Path.extensionOf?_eq_some_iff.2 ⟨he, stem, hstem, by rw [hk]⟩, hk]
  rfl

theorem Path.hasKind_iff {p : Path} {above : List Component} {names : Location} (k : FileKind)
    (hp : p.components = above ++ names.map .name) (hne : names ≠ []) :
    p.hasKind k = true ↔ ∃ stem, stem ≠ "" ∧ names.getLast? = some (stem ++ k.extension) := by
  obtain ⟨last, hlast⟩ : ∃ last, names.getLast? = some last :=
    ⟨_, List.getLast?_eq_some_getLast hne⟩
  have hname : p.fileName? = some last := by
    simp [fileName?, hp, List.getLast?_append, List.getLast?_map, hlast]
  rw [hasKind, extension?, hname, Option.bind_some, hlast]
  constructor
  · intro h
    cases hext : extensionOf? last with
    | none => simp [hext] at h
    | some e' =>
      have hdot : "." ++ e' = k.extension := by simpa [hext] using h
      obtain ⟨-, stem, hstem, hparts⟩ := extensionOf?_eq_some_iff.1 hext
      exact ⟨stem, hstem, by rw [hparts, hdot]⟩
  · rintro ⟨stem, hstem, hlast⟩
    obtain ⟨e, he, hdot⟩ := Option.map_eq_some_iff.1 (k.extension_of_name hstem)
    rw [Option.some.inj hlast, he]
    simpa using hdot

/-- A file is of one kind. -/
theorem Node.HasSource.kind_unique {dir : Node} {k k' : FileKind} {names : Location}
    {bytes bytes' : List UInt8} (h : dir.HasSource k names bytes)
    (h' : dir.HasSource k' names bytes') : k = k' := by
  obtain ⟨stem, hstem, hlast⟩ := h.kind
  obtain ⟨stem', hstem', hlast'⟩ := h'.kind
  have heq := Option.some.inj (hlast.symm.trans hlast')
  have hone := k.extension_of_name hstem
  rw [heq, k'.extension_of_name hstem'] at hone
  exact FileKind.extension_inj (Option.some.inj hone).symm

namespace FileSystem

variable {fs : FileSystem} {root : Path} {α : Type} {files : List α} {place : α → Path}

theorem checkEach_eq {kind : FileKind} {found : α → List Diagnostic}
    (h : ∀ file ∈ files, fs.checkFile root (place file) kind = .ok (found file))
    (s : Progress) :
    ∃ events, fs.checkEach root kind (files.map place) s =
      (⟨s.errors ++ files.flatMap found, events⟩, none) := by
  induction files generalizing s with
  | nil => exact ⟨s.events, by simp [checkEach]⟩
  | cons file rest ih =>
    simp only [List.forall_mem_cons] at h
    obtain ⟨events, hrest⟩ := ih h.2 (s.add ((place file).relative root) (found file))
    refine ⟨events, ?_⟩
    rw [List.map_cons, checkEach, h.1, List.flatMap_cons, ← List.append_assoc]
    exact hrest

/-- Files that can all be checked give their errors kind by kind. -/
theorem checkFiles_eq (kinds : List FileKind) {found : FileKind → α → List Diagnostic}
    (h : ∀ kind, ∀ file ∈ files, fs.checkFile root (place file) kind = .ok (found kind file))
    (s : Progress) :
    ∃ events, fs.checkFiles root (files.map place) kinds s =
      (⟨s.errors ++ kinds.flatMap fun kind =>
          (files.filter fun file => (place file).hasKind kind).flatMap (found kind),
        events⟩, none) := by
  induction kinds generalizing s with
  | nil => exact ⟨s.events, by simp [checkFiles]⟩
  | cons kind rest ih =>
    obtain ⟨own, hown⟩ : ∃ own, (files.filter fun file => (place file).hasKind kind) = own :=
      ⟨_, rfl⟩
    have hfilter : (files.map place).filter (·.hasKind kind) = own.map place := by
      rw [List.filter_map, ← hown]
      rfl
    obtain ⟨events, heach⟩ : ∃ events, fs.checkEach root kind (own.map place) s =
        (⟨s.errors ++ own.flatMap (found kind), events⟩, none) :=
      checkEach_eq (fun file hfile => h kind file (List.mem_filter.1 (hown ▸ hfile)).1) s
    obtain ⟨events', hrest⟩ := ih (Progress.tell ⟨_, events⟩ (.parsedFiles _ kind root))
    refine ⟨events', ?_⟩
    rw [checkFiles, hfilter, heach, List.flatMap_cons, hown, ← List.append_assoc]
    exact hrest

theorem read_of_find {p : Path} {goal : Location} {bytes : List UInt8} {left : Nat}
    (h : fs.find false p = .ok (.taken goal (.file bytes) left)) : fs.read p = .ok bytes := by
  simp [read, node, h]

end FileSystem

/-! ## Reports -/

/-- What a check of a directory has to say of the files below it, each under a path that
is shown for it: the files of a kind, each once and in the order of their names, and the
errors in the text of each. Bytes that are no text are replaced. -/
structure DirectoryReport (dir : Node) (shown : Location → String) where
  files : FileKind → List Location
  found : FileKind → Location → List Diagnostic
  sorted (k : FileKind) : (files k).Pairwise (· < ·)
  mem_files_iff (k : FileKind) (names : Location) :
    names ∈ files k ↔ ∃ bytes, dir.HasSource k names bytes
  checked (k : FileKind) (names : Location) (bytes : List UInt8) (h : dir.HasSource k names bytes) :
    checkSource (shown names) (Text.ofBytes bytes) k false = .ok (found k names)

namespace DirectoryReport

variable {dir : Node} {shown : Location → String}

/-- The errors of the files, kind by kind. -/
def errors (r : DirectoryReport dir shown) (kinds : List FileKind) : List Diagnostic :=
  kinds.flatMap fun k => (r.files k).flatMap (r.found k)

/-- No file is reported on twice. -/
theorem nodup_files (r : DirectoryReport dir shown) {kinds : List FileKind} (h : kinds.Nodup) :
    (kinds.flatMap r.files).Nodup := by
  refine List.pairwise_flatMap.2 ⟨fun k _ => (r.sorted k).imp fun hlt => ne_of_lt hlt, h.imp ?_⟩
  rintro k k' hne names hk names' hk' rfl
  obtain ⟨bytes, hsource⟩ := (r.mem_files_iff k names).1 hk
  obtain ⟨bytes', hsource'⟩ := (r.mem_files_iff k' names).1 hk'
  exact hne (hsource.kind_unique hsource')

/-- There is one way to report on a directory. -/
theorem errors_unique (r r' : DirectoryReport dir shown) (kinds : List FileKind) :
    r.errors kinds = r'.errors kinds := by
  refine List.flatMap_congr fun k _ => ?_
  have hfiles : r.files k = r'.files k :=
    (r.sorted k).eq_of_mem_iff (r'.sorted k) fun names => by
      rw [r.mem_files_iff, r'.mem_files_iff]
  rw [← hfiles]
  refine List.flatMap_congr fun names hnames => ?_
  obtain ⟨bytes, hsource⟩ := (r.mem_files_iff k names).1 hnames
  exact Except.ok.inj ((r.checked k names bytes hsource).symm.trans
    (r'.checked k names bytes hsource))

end DirectoryReport

namespace FileSystem

variable {fs : FileSystem} {root base : Path} {dir : Node} {shown : Location → String}

/-- The files that a check of a root goes through, how they are reached from the directory,
and what is shown for them. -/
structure Covers (fs : FileSystem) (root base : Path) (dir : Node) (shown : Location → String) :
    Prop where
  proper : dir.Proper
  isDir : dir.isDir = true
  root_exists : fs.exists root = true
  lists : ∃ files, IsListing files dir ∧ fs.filesBelow root = files.map base.down
  reads : ∀ names bytes, dir.at? names = some (.file bytes) →
    fs.read (base.down names) = .ok bytes
  ends : ∃ above, ∀ names : Location, (∀ name ∈ names, IsEntryName name) →
    (base.down names).components = above ++ names.map .name
  shows : ∀ names : Location, (∀ name ∈ names, IsEntryName name) → names ≠ [] →
    (base.down names).relative root = shown names

namespace Covers

/-- The errors in a file, as its text is checked under the path that is shown for it. -/
def found (dir : Node) (shown : Location → String) (k : FileKind) (names : Location) :
    List Diagnostic :=
  match dir.at? names with
  | some (.file bytes) =>
    (checkSource (shown names) (Text.ofBytes bytes) k false).toOption.getD []
  | _ => []

theorem checkSource_found {k : FileKind} {names : Location} {bytes : List UInt8}
    (h : dir.at? names = some (.file bytes)) :
    checkSource (shown names) (Text.ofBytes bytes) k false = .ok (found dir shown k names) := by
  obtain ⟨kept, hkept, -⟩ := Parser.checkSource_failFast (shown names) (Text.ofBytes bytes) k
  simp [found, h, hkept, Except.toOption]

/-- What a check has to say is what it says. -/
theorem checkKinds_eq (h : Covers fs root base dir shown) (kinds : List FileKind) :
    ∃ report : DirectoryReport dir shown,
      (fs.checkKinds root kinds).1 =
        ⟨.clean, kinds.map FileKind.extension, report.errors kinds⟩ := by
  obtain ⟨files, hlisting, hbelow⟩ := h.lists
  obtain ⟨above, hends⟩ := h.ends
  have hnames : ∀ names bytes, dir.at? names = some (.file bytes) →
      (∀ name ∈ names, IsEntryName name) ∧ names ≠ [] := by
    rintro names bytes hat
    refine ⟨h.proper.isEntryName_of_at? hat, ?_⟩
    rintro rfl
    cases hat
    cases h.isDir
  have hkind : ∀ k names, names ∈ files →
      ((base.down names).hasKind k = true ↔
        ∃ stem, stem ≠ "" ∧ names.getLast? = some (stem ++ k.extension)) := by
    intro k names hmem
    obtain ⟨bytes, hat⟩ := (hlisting.mem_iff names).1 hmem
    obtain ⟨hentries, hne⟩ := hnames names bytes hat
    exact Path.hasKind_iff k (hends names hentries) hne
  have hcheck : ∀ k, ∀ names ∈ files,
      fs.checkFile root (base.down names) k = .ok (found dir shown k names) := by
    intro k names hmem
    obtain ⟨bytes, hat⟩ := (hlisting.mem_iff names).1 hmem
    obtain ⟨hentries, hne⟩ := hnames names bytes hat
    rw [checkFile, h.reads names bytes hat, h.shows names hentries hne]
    exact checkSource_found hat
  refine ⟨{
    files := fun k => files.filter fun names => (base.down names).hasKind k
    found := found dir shown
    sorted := fun k => hlisting.sorted.filter _
    mem_files_iff := fun k names => ?_
    checked := fun k names bytes hsource => checkSource_found hsource.file }, ?_⟩
  · rw [List.mem_filter]
    constructor
    · rintro ⟨hmem, hk⟩
      obtain ⟨bytes, hat⟩ := (hlisting.mem_iff names).1 hmem
      exact ⟨bytes, hat, (hkind k names hmem).1 hk⟩
    · rintro ⟨bytes, hsource⟩
      have hmem := (hlisting.mem_iff names).2 ⟨bytes, hsource.file⟩
      exact ⟨hmem, (hkind k names hmem).2 hsource.kind⟩
  · obtain ⟨events, hfiles⟩ := checkFiles_eq kinds hcheck {}
    rw [checkKinds, if_pos h.root_exists, hbelow, hfiles]
    rfl

end Covers

/-! ## Roots without a dot at their front -/

/-- A search goes through the files of a directory if it leaves out what it finds behind
links. The path of each file has to lead to it and to end with its names. -/
theorem covers_of_search {above : List Component} {loc : Location} {es : List (String × Node)}
    {left : Nat} (hfs : fs.top.Proper) (hroot : fs.exists root = true)
    (hsearch : fs.searchBase? root = some base)
    (hfind : fs.find false base = .ok (.taken loc (.dir es) left))
    (hdown : ∀ names : Location, (∀ name ∈ names, IsEntryName name) →
      (base.down names).components = above ++ names.map .name)
    (hwalk : ∀ names : Location, (∀ name ∈ names, IsEntryName name) → names ≠ [] →
      fs.find false (base.down names) = fs.walk false left loc names)
    (hlinked : ∀ f ∈ fs.filesWithin fs.depthBound false left loc, f.linked = true →
      root.components <+: above)
    (hshows : ∀ names : Location, (∀ name ∈ names, IsEntryName name) → names ≠ [] →
      (base.down names).relative root = shown names) :
    fs.Covers root base (.dir es) shown := by
  have hat := at?_of_find hfind
  have hproper := hfs.at? hat
  refine {
    proper := hproper
    isDir := rfl
    root_exists := hroot
    lists := filesBelow_eq hfs hsearch hfind hdown fun f hf hlink => ?_
    reads := fun names bytes hfile => ?_
    ends := ⟨above, hdown⟩
    shows := hshows }
  · rw [Path.startsWith, hdown _ (isEntryName_of_mem_filesWithin hfs hf)]
    exact List.isPrefixOf_iff_prefix.2 ((hlinked f hf hlink).trans (List.prefix_append ..))
  · have hne : names ≠ [] := by
      rintro rfl
      cases hfile
    have hend := hwalk names (hproper.isEntryName_of_at? hfile) hne
    rw [walk_names hat hproper hfile (by simp)] at hend
    exact read_of_find hend

/-- A search that starts from where a directory is goes through its files. -/
theorem covers_of_isBase {above : Path} {loc : Location} {es : List (String × Node)} {left : Nat}
    (hfs : fs.top.Proper) (hroot : fs.exists root = true)
    (hsearch : fs.searchBase? root = some base) (hbase : fs.IsBase above base)
    (hhere : .here ∉ above.components)
    (hfind : fs.find false above = .ok (.taken loc (.dir es) left))
    (hlinked : ∀ f ∈ fs.filesWithin fs.depthBound false left loc, f.linked = true →
      root.components <+: above.components)
    (hshows : ∀ (p : Path) (names : Location), p.components = above.components ++ names.map .name →
      (∀ name ∈ names, IsEntryName name) → names ≠ [] → p.relative root = shown names) :
    fs.Covers root base (.dir es) shown := by
  have hfindBase := hbase.find.trans hfind
  have hdot : base.components ≠ [.here] := fun heq => hhere (by simp [← hbase.components, heq])
  have hdown : ∀ names : Location, (∀ name ∈ names, IsEntryName name) →
      (base.down names).components = above.components ++ names.map .name := by
    intro names h
    rw [Path.components_down hbase.text hdot h, hbase.components]
  refine covers_of_search hfs hroot hsearch hfindBase hdown (fun names h hne => ?_) hlinked
    fun names h hne => hshows _ names (hdown names h) h hne
  rw [Path.down, if_neg hdot, find_joins hbase.text (fun name hname => (h name hname).toIsPart) hne,
    hfindBase, goOn_taken]

/-- A check of such a root goes through the files that no link leads to, and shows each by
the names down to it. -/
theorem covers_of_notMem_here (hfs : fs.top.Proper) (hroot : fs.isDir root = true)
    (hhere : .here ∉ root.components) :
    ∃ base dir, fs.node root = .ok dir ∧
      fs.Covers root base dir fun names => Path.slashed (String.intercalate "/" names) := by
  obtain ⟨loc, es, left, hfind, hnode⟩ := find_of_isDir hroot
  obtain ⟨base, hsearch, hbase⟩ := searchBase?_of_find hhere hfind
  exact ⟨base, .dir es, hnode, covers_of_isBase hfs (exists_iff.2 ⟨loc, _, left, hfind⟩) hsearch
    hbase hhere hfind (fun _ _ _ => List.prefix_refl _) fun _ _ hp h hne =>
      Path.relative_below hp h hne⟩

/-- A check of a directory is clean, and its errors are those of every file of a kind that
is asked for, below the directory and behind no link: each file once, kind by kind, and the
files of a kind in the order of their names. -/
theorem check_reports_every_source {extensions : List String} {kinds : List FileKind}
    (hfs : fs.top.Proper) (hroot : fs.isDir root = true) (hhere : .here ∉ root.components)
    (hkinds : kinds.map FileKind.extension =
      if extensions = [] then [".cls", ".trigger"] else extensions.map FileKind.dotted)
    (hdistinct : kinds.Nodup) :
    ∃ dir, fs.node root = .ok dir ∧
      ∃ report : DirectoryReport dir fun names => Path.slashed (String.intercalate "/" names),
        (fs.checkPath root extensions).1 =
          ⟨.clean, kinds.map FileKind.extension, report.errors kinds⟩ ∧
        (kinds.flatMap report.files).Nodup := by
  obtain ⟨base, dir, hnode, hcovers⟩ := covers_of_notMem_here hfs hroot hhere
  obtain ⟨report, hreport⟩ := hcovers.checkKinds_eq kinds
  refine ⟨dir, hnode, report, ?_, report.nodup_files hdistinct⟩
  rw [checkPath, FileKind.requested_eq_ok hkinds]
  exact hreport

/-- A directory with a file in a hidden directory and a link to itself. -/
def classes : FileSystem where
  top := .dir [("src", .dir [("A.cls", .file "class A \x7b".toUTF8.toList),
    (".old", .dir [("B.trigger", .file [])]), ("again", .link "."), ("A.txt", .file [])])]
  workdir := []

theorem proper_classes : classes.top.Proper := by
  refine .dir (by decide) (by decide) (List.forall_mem_singleton.2 ?_)
  refine .dir (by decide) (by decide) ?_
  simp only [List.forall_mem_cons, List.not_mem_nil, false_implies, implies_true, and_true]
  refine ⟨.file _, .dir (by decide) (by decide) (List.forall_mem_singleton.2 (.file _)),
    .link _, .file _⟩

theorem check_reports_every_source_classes :
    classes.top.Proper ∧ classes.isDir ⟨"src"⟩ = true ∧ .here ∉ (Path.mk "src").components ∧
    FileKind.default.map FileKind.extension = [".cls", ".trigger"] ∧ FileKind.default.Nodup ∧
    ∃ dir, classes.node ⟨"src"⟩ = .ok dir ∧
      ∃ report : DirectoryReport dir fun names => Path.slashed (String.intercalate "/" names),
        (classes.checkPath ⟨"src"⟩ []).1 =
          ⟨.clean, [".cls", ".trigger"], report.errors FileKind.default⟩ ∧
        (FileKind.default.flatMap report.files).Nodup := by
  have hroot : classes.isDir ⟨"src"⟩ = true := by decide +kernel
  have hhere : .here ∉ (Path.mk "src").components := by decide +kernel
  have hdistinct : FileKind.default.Nodup := by decide
  exact ⟨proper_classes, hroot, hhere, rfl, hdistinct,
    check_reports_every_source proper_classes hroot hhere rfl hdistinct⟩

end FileSystem

end ApexSyntax
