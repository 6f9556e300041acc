-- How the spelling of a root shows in what a check of it reports. Below a directory
-- without links a check from inside it reports what a check by its path reports; but a
-- root with a dot at its front has every file shown by a detour, out of the directory
-- and in again.
import ApexSyntax.Proofs.Check.Directories

namespace ApexSyntax

/-! ## Directories without links -/

/-- No link lies below the node. -/
def Node.LinkFree (n : Node) : Prop :=
  ∀ (names : Location) (target : String), n.at? names ≠ some (.link target)

namespace Node.LinkFree

variable {n m : Node} {loc : Location}

theorem file (bytes : List UInt8) : (Node.file bytes).LinkFree := fun names target h => by
  cases eq_nil_of_at? rfl h
  cases h

theorem dir {es : List (String × Node)} (h : ∀ e ∈ es, e.2.LinkFree) : (Node.dir es).LinkFree := by
  intro names target hat
  cases names with
  | nil => cases hat
  | cons name rest =>
    obtain ⟨m, hm, hrest⟩ := Option.bind_eq_some_iff.1 hat
    exact h _ (mem_of_child? hm).2 rest target hrest

theorem at? (h : n.LinkFree) (hm : n.at? loc = some m) : m.LinkFree := fun names target hat =>
  h (loc ++ names) target (by rw [at?_append, hm]; exact hat)

end Node.LinkFree

namespace Path

/-! ## A dot at the front -/

theorem parts_dotted (p : Path) : (Path.mk ("./" ++ p.text)).parts = "." :: p.parts := by
  simp [parts, splitAtSlash]

theorem isAbsolute_dotted (p : Path) : (Path.mk ("./" ++ p.text)).isAbsolute = false := by
  simp [isAbsolute]

theorem components_dotted {p : Path} (habs : p.isAbsolute = false) (hhere : .here ∉ p.components) :
    (Path.mk ("./" ++ p.text)).components = .here :: p.components := by
  have hlead : p.lead = [] := by
    by_cases hdot : p.parts.head? = some "."
    · exact absurd (by simp [components_eq, lead, habs, hdot]) hhere
    · simp [lead, habs, hdot]
  have hskip : component? "." = none := rfl
  rw [components_eq, components_eq p, lead, isAbsolute_dotted, parts_dotted, hlead]
  simp [hskip]

/-! ## Detours -/

/-- The way that leaves a directory for the one that it is named in, and comes back by all
its names but the first. -/
def detour (first : String) (rest : List String) : List String :=
  first :: (List.replicate (rest.length + 1) ".." ++ rest)

/-- From a path that is led by a dot, one without the dot is seen by a detour. -/
theorem way?_here_cons {first : String} {rest names : List String} (hne : names ≠ []) :
    way? false ((first :: rest).map .name ++ names.map .name) (.here :: (first :: rest).map .name) =
      some (.name first ::
        (List.replicate (rest.length + 1) Component.up ++ (rest ++ names).map .name)) := by
  rw [← List.map_append, List.cons_append]
  obtain ⟨next, more, hmore⟩ := List.exists_cons_of_ne_nil (show rest ++ names ≠ [] by simp [hne])
  have hup : (rest.map .name).map (fun _ : Component => Component.up) =
      List.replicate rest.length Component.up := by
    simp [List.eq_replicate_iff]
  simpa [way?, hmore, List.replicate_succ] using hup

theorem isPart_of_name_mem {p : Path} {name : String} (hnul : '\x00' ∉ p.text.toList)
    (h : .name name ∈ p.components) : IsPart name ∧ name ≠ "" := by
  rw [components_eq] at h
  rcases List.mem_append.1 h with h | h
  · unfold lead at h
    split at h
    · simp at h
    · split at h <;> simp at h
  · obtain ⟨part, hpart, hname⟩ := List.mem_filterMap.1 h
    unfold component? at hname
    split at hname
    · cases hname
    · split at hname
      · cases hname
      · cases hname
        exact ⟨isPart_of_mem_parts hnul hpart, by simp_all⟩

end Path

namespace FileSystem

variable {fs : FileSystem} {p : Path} {loc : Location} {es : List (String × Node)} {left : Nat}

theorem linked_eq_false {n : Node} {f : FoundFile} {depth : Nat} (hfs : fs.top.Proper)
    (hat : fs.top.at? loc = some n) (hlinks : n.LinkFree)
    (h : f ∈ fs.filesWithin depth false left loc) : f.linked = false := by
  induction depth generalizing loc n f with
  | zero => cases h
  | succ depth ih =>
    obtain ⟨n', name, m, hat', hentry, hmem⟩ := exists_entry_of_mem_filesWithin h
    cases hat.symm.trans hat'
    have hchild : n.child? name = some m := (hfs.at? hat).child?_eq_some_iff.2 hentry
    have hone : n.at? [name] = some m := by simp [Node.at?, hchild]
    obtain ⟨bytes, rfl, rfl⟩ | ⟨entries, g, rfl, hg, rfl⟩ | ⟨target, _, _, g, rfl, -, -⟩ :=
      filesAt_cases hmem
    · rfl
    · have hnext : fs.top.at? (loc ++ [name]) = some (.dir entries) := by
        rw [Node.at?_concat, hat]
        exact hchild
      exact (ih hnext (hlinks.at? hone) hg : g.linked = false)
    · exact absurd rfl (hlinks.at? hone [] target)

/-! ## A dot for the directory one stands in -/

theorem find_here (h : fs.top.at? fs.workdir = some (.dir es)) :
    fs.find false ⟨"."⟩ = .ok (.taken fs.workdir (.dir es) maxLinks) := walk_here h

theorem enter?_here (h : fs.top.at? fs.workdir = some (.dir es)) :
    fs.enter? ⟨"."⟩ "." = some ⟨"."⟩ := by
  have hexists : fs.exists ⟨"."⟩ = true := exists_iff.2 ⟨_, _, _, find_here h⟩
  have hcomponents : (Path.mk ".").components = [.here] := by decide
  simp [enter?, hcomponents, hexists]

/-- A check from inside a directory shows each file by the names down to it. -/
theorem covers_here (hfs : fs.top.Proper) (hat : fs.top.at? fs.workdir = some (.dir es))
    (hlinks : (Node.dir es).LinkFree) :
    fs.Covers ⟨"."⟩ ⟨"."⟩ (.dir es) fun names => Path.slashed (String.intercalate "/" names) := by
  have hcomponents : (Path.mk ".").components = [.here] := by decide
  have hdown : ∀ names : Location, (∀ name ∈ names, IsEntryName name) →
      ((Path.mk ".").down names).components = [] ++ names.map .name := fun names h =>
    Path.components_down_of_here hcomponents h
  refine covers_of_search hfs (exists_iff.2 ⟨_, _, _, find_here hat⟩) (enter?_here hat)
    (find_here hat) hdown (fun names h hne => ?_) (fun f hf hlink => ?_) fun names h hne => ?_
  · obtain ⟨name, rest, rfl⟩ := List.exists_cons_of_ne_nil hne
    rw [List.forall_mem_cons] at h
    rw [Path.down_cons_of_here hcomponents h.1.toIsPart,
      find_joins_mk h.1.toIsPart h.1.ne_empty fun name hname => (h.2 name hname).toIsPart]
  · exact absurd (hlink.symm.trans (linked_eq_false hfs hat hlinks hf)) (by decide)
  · obtain ⟨name, rest, rfl⟩ := List.exists_cons_of_ne_nil hne
    have hway : Path.way? false ((Path.mk ".").down (name :: rest)).components
        (Path.mk ".").components = some ((name :: rest).map .name) := by
      rw [hdown _ h, hcomponents]
      cases rest <;> simp [Path.way?]
    have habs : ((Path.mk ".").down (name :: rest)).isAbsolute = (Path.mk ".").isAbsolute :=
      Path.isAbsolute_eq_false (hdown _ h) (by simp)
    refine Path.relative_of_way? hway habs ?_
      (fun name hname => ⟨(h name hname).toIsPart, (h name hname).ne_empty⟩) hne
    simp [Function.comp_def, Component.text]

/-! ## A dot at the front of the root -/

/-- A root with a dot at its front leads to the same place as without, and a search below it
starts from the same path. -/
theorem find_dotted {root : Path} {n : Node} (habs : root.isAbsolute = false)
    (h : fs.find false root = .ok (.taken loc n left)) :
    fs.find false ⟨"./" ++ root.text⟩ = .ok (.taken loc n left) ∧
      fs.searchBase? ⟨"./" ++ root.text⟩ = fs.searchBase? root := by
  obtain ⟨hne, hnul⟩ := text_of_find h
  obtain ⟨first, rest, hfirst⟩ := List.exists_cons_of_ne_nil root.parts_ne_nil
  have hroot : fs.find false root = fs.walk false maxLinks fs.workdir (first :: rest) := by
    rw [find_eq hne hnul, habs, hfirst]
    rfl
  obtain ⟨es, hat⟩ := isDir_of_walk (hroot ▸ h)
  constructor
  · rw [← h, hroot, find_eq (by simp) (by simp [hnul]), Path.parts_dotted,
      Path.isAbsolute_dotted, hfirst]
    exact walk_skip (Or.inr rfl)
  · rw [searchBase?_eq, searchBase?_eq, Path.parts_dotted, Path.isAbsolute_dotted, habs,
      List.foldl_cons]
    simp only [Bool.false_eq_true, if_false, Option.bind_some, enter?_here hat]

theorem isPart_detour {first : String} {rest names : List String}
    (hrest : ∀ name ∈ first :: rest, IsPart name ∧ name ≠ "")
    (hnames : ∀ name ∈ names, IsEntryName name) :
    ∀ part ∈ Path.detour first rest ++ names, IsPart part ∧ part ≠ "" := by
  intro part hpart
  rcases List.mem_append.1 hpart with hpart | hpart
  · simp only [Path.detour, List.mem_cons, List.mem_append, List.mem_replicate] at hpart
    rcases hpart with rfl | ⟨-, rfl⟩ | hpart
    · exact hrest _ List.mem_cons_self
    · exact ⟨⟨by decide, by decide⟩, by decide⟩
    · exact hrest _ (List.mem_cons_of_mem _ hpart)
  · exact ⟨(hnames part hpart).toIsPart, (hnames part hpart).ne_empty⟩

/-- A check of a root with a dot at its front shows each file by a detour. -/
theorem covers_dotted {first : String} {rest : List String} (hfs : fs.top.Proper)
    (hp : p.components = (first :: rest).map .name)
    (hfind : fs.find false p = .ok (.taken loc (.dir es) left))
    (hlinks : (Node.dir es).LinkFree) :
    ∃ base, fs.Covers ⟨"./" ++ p.text⟩ base (.dir es) fun names =>
      Path.slashed (String.intercalate "/" (Path.detour first rest ++ names)) := by
  have habs : p.isAbsolute = false := Path.isAbsolute_eq_false hp (by simp)
  have hhere : .here ∉ p.components := by simp [hp]
  obtain ⟨base, hsearch, hbase⟩ := searchBase?_of_find hhere hfind
  obtain ⟨hfind', hsearch'⟩ := find_dotted habs hfind
  have hdotted := Path.components_dotted habs hhere
  refine ⟨base, covers_of_isBase hfs (exists_iff.2 ⟨loc, _, left, hfind'⟩)
    (hsearch'.trans hsearch) hbase hhere hfind (fun f hf hlink => ?_) fun q names hq h hne => ?_⟩
  · exact absurd (hlink.symm.trans (linked_eq_false hfs (at?_of_find hfind) hlinks hf)) (by decide)
  · have hrest : ∀ name ∈ first :: rest, IsPart name ∧ name ≠ "" := fun name hname =>
      Path.isPart_of_name_mem (text_of_find hfind).2 (hp ▸ List.mem_map_of_mem hname)
    have hway := @Path.way?_here_cons first rest names hne
    rw [← hp, ← hq, ← hdotted] at hway
    have habs' : q.isAbsolute = (Path.mk ("./" ++ p.text)).isAbsolute := by
      rw [Path.isAbsolute_dotted, Path.isAbsolute_eq_false (hq.trans (by rw [hp]; rfl)) (by simp)]
    refine Path.relative_of_way? hway habs' ?_ (isPart_detour hrest h) (by simp [Path.detour])
    simp [Path.detour, Function.comp_def, Component.text]

/-! ## Three spellings of a root -/

/-- Below a directory without links a check reports the same errors for the directory by its
path, by the path with a dot at its front, and by a dot from inside it. But behind the dot at
the front every file is shown by a detour. -/
theorem root_spellings_report {first : String} {rest extensions : List String}
    {kinds : List FileKind} (hfs : fs.top.Proper) (hp : p.components = (first :: rest).map .name)
    (hdir : fs.isDir p = true) (hlinks : ∀ dir, fs.node p = .ok dir → dir.LinkFree)
    (hkinds : kinds.map FileKind.extension =
      if extensions = [] then [".cls", ".trigger"] else extensions.map FileKind.dotted) :
    ∃ dir, fs.node p = .ok dir ∧
      ∃ (plain : DirectoryReport dir fun names => Path.slashed (String.intercalate "/" names))
        (dotted : DirectoryReport dir fun names =>
          Path.slashed (String.intercalate "/" (Path.detour first rest ++ names))),
        (fs.checkPath p extensions).1 =
          ⟨.clean, kinds.map FileKind.extension, plain.errors kinds⟩ ∧
        (fs.checkPath ⟨"./" ++ p.text⟩ extensions).1 =
          ⟨.clean, kinds.map FileKind.extension, dotted.errors kinds⟩ ∧
        ∀ loc, fs.realLocation? p = some loc →
          ({ fs with workdir := loc }.checkPath ⟨"."⟩ extensions).1 =
            (fs.checkPath p extensions).1 := by
  obtain ⟨loc, es, left, hfind, hnode⟩ := find_of_isDir hdir
  have hfree := hlinks _ hnode
  obtain ⟨base, dir, hnode', hplain⟩ := covers_of_notMem_here hfs hdir (by simp [hp])
  obtain rfl : Node.dir es = dir := Except.ok.inj (hnode.symm.trans hnode')
  obtain ⟨base', hdotted⟩ := covers_dotted hfs hp hfind hfree
  obtain ⟨plain, hplain⟩ := hplain.checkKinds_eq kinds
  obtain ⟨dotted, hdotted⟩ := hdotted.checkKinds_eq kinds
  have hrequest := FileKind.requested_eq_ok hkinds
  have hreport : (fs.checkPath p extensions).1 =
      ⟨.clean, kinds.map FileKind.extension, plain.errors kinds⟩ := by
    rw [checkPath, hrequest]
    exact hplain
  refine ⟨_, hnode, plain, dotted, hreport, ?_, fun goal hgoal => ?_⟩
  · rw [checkPath, hrequest]
    exact hdotted
  · have hloc : loc = goal := by simpa [realLocation?, hfind] using hgoal
    have hat : fs.top.at? goal = some (.dir es) := hloc ▸ at?_of_find hfind
    have hinside : ({ fs with workdir := goal } : FileSystem).Covers ⟨"."⟩ ⟨"."⟩ (.dir es)
        fun names => Path.slashed (String.intercalate "/" names) := covers_here hfs hat hfree
    obtain ⟨inside, hinside⟩ := hinside.checkKinds_eq kinds
    rw [hreport, checkPath, hrequest, plain.errors_unique inside]
    exact hinside

/-- A directory with one class that lacks its last brace. -/
def oneClass : FileSystem where
  top := .dir [("src", .dir [("A.cls", .file "class A \x7b".toUTF8.toList)])]
  workdir := []

theorem proper_oneClass : oneClass.top.Proper := by
  refine .dir (by decide) (by decide) (List.forall_mem_singleton.2 ?_)
  exact .dir (by decide) (by decide) (List.forall_mem_singleton.2 (.file _))

theorem linkFree_oneClass : oneClass.top.LinkFree :=
  .dir (List.forall_mem_singleton.2 (.dir (List.forall_mem_singleton.2 (.file _))))

theorem root_spellings_report_oneClass :
    oneClass.top.Proper ∧ (Path.mk "src").components = ["src"].map .name ∧
    oneClass.isDir ⟨"src"⟩ = true ∧
    (∀ dir, oneClass.node ⟨"src"⟩ = .ok dir → dir.LinkFree) ∧
    FileKind.default.map FileKind.extension = [".cls", ".trigger"] ∧
    ∃ dir, oneClass.node ⟨"src"⟩ = .ok dir ∧
      ∃ (plain : DirectoryReport dir fun names => Path.slashed (String.intercalate "/" names))
        (dotted : DirectoryReport dir fun names =>
          Path.slashed (String.intercalate "/" (Path.detour "src" [] ++ names))),
        (oneClass.checkPath ⟨"src"⟩ []).1 =
          ⟨.clean, [".cls", ".trigger"], plain.errors FileKind.default⟩ ∧
        (oneClass.checkPath ⟨"./" ++ "src"⟩ []).1 =
          ⟨.clean, [".cls", ".trigger"], dotted.errors FileKind.default⟩ ∧
        ∀ loc, oneClass.realLocation? ⟨"src"⟩ = some loc →
          ({ oneClass with workdir := loc }.checkPath ⟨"."⟩ []).1 =
            (oneClass.checkPath ⟨"src"⟩ []).1 := by
  have hp : (Path.mk "src").components = ["src"].map .name := by decide +kernel
  have hdir : oneClass.isDir ⟨"src"⟩ = true := by decide +kernel
  have hlinks : ∀ dir, oneClass.node ⟨"src"⟩ = .ok dir → dir.LinkFree := by
    intro dir h
    obtain ⟨loc, hat⟩ := at?_of_node h
    exact linkFree_oneClass.at? hat
  have hkinds : FileKind.default.map FileKind.extension =
      if ([] : List String) = [] then [".cls", ".trigger"] else [].map FileKind.dotted := rfl
  exact ⟨proper_oneClass, hp, hdir, hlinks, rfl,
    root_spellings_report proper_oneClass hp hdir hlinks hkinds⟩

/-- A dot at the front of a root changes the report: the file is shown as `src/../A.cls`. -/
theorem dotted_root_changes_report :
    ¬ ∀ (fs : FileSystem) (p : Path) (extensions : List String), fs.top.Proper →
      fs.isDir p = true → (∀ c ∈ p.components, ∃ name, c = .name name) →
      (fs.checkPath ⟨"./" ++ p.text⟩ extensions).1 = (fs.checkPath p extensions).1 := by
  intro h
  have hcomponents : (Path.mk "src").components = [.name "src"] := by decide +kernel
  have hsame := h oneClass ⟨"src"⟩ [] proper_oneClass (by decide +kernel) (by simp [hcomponents])
  have hpaths : (oneClass.checkPath ⟨"./src"⟩ []).1.errors.map Diagnostic.path ≠
      (oneClass.checkPath ⟨"src"⟩ []).1.errors.map Diagnostic.path := by decide +kernel
  exact hpaths (congrArg (fun r => r.errors.map Diagnostic.path) hsame)

end FileSystem

end ApexSyntax
