-- The files that a search below a directory finds: each regular file once, and of
-- those behind no link exactly the files of the tree, in the order of their names.
import ApexSyntax.Proofs.FileSystem.Walks
import Mathlib.Data.List.Lex
import Mathlib.Data.String.Basic

namespace ApexSyntax

/-! ## The path of a file -/

/-- The path of a file from the names down to it. A dot for the directory is not
written. -/
def Path.down (base : Path) (names : Location) : Path :=
  names.foldl Path.join (if base.components = [.here] then ⟨""⟩ else base)

theorem FoundFile.path_eq (f : FoundFile) (base : Path) : f.path base = base.down f.names := rfl

/-- The order of paths in one directory is the order of their names. -/
theorem Component.inOrder_names (above : List Component) (names names' : Location) :
    inOrder (above ++ names.map .name) (above ++ names'.map .name) = decide (names ≤ names') := by
  induction above with
  | cons c above ih => simpa [inOrder] using ih
  | nil =>
    induction names generalizing names' with
    | nil => simp [inOrder, ← not_lt]
    | cons name rest ih =>
      cases names' with
      | nil => simp [inOrder, ← not_lt]
      | cons name' rest' =>
        have hrest := ih rest'
        simp only [List.nil_append, ← not_lt] at hrest ⊢
        rcases lt_trichotomy name name' with hlt | rfl | hlt
        · simp [inOrder, before, hlt, hlt.ne, List.cons_lt_cons_iff, hlt.ne', hlt.not_gt]
        · simp [inOrder, hrest]
        · have hback : before (.name name) (.name name') = false := decide_eq_false hlt.not_gt
          simp [inOrder, hback, hlt, hlt.ne', List.cons_lt_cons_iff]

namespace Path

variable {base : Path} {names : Location}

theorem components_down (hbase : base.text ≠ "") (hhere : base.components ≠ [.here])
    (h : ∀ name ∈ names, IsEntryName name) :
    (base.down names).components = base.components ++ names.map .name := by
  rw [down, if_neg hhere, components_joins hbase fun name hname => (h name hname).toIsPart,
    filterMap_component? h]

/-- Below a dot the path of a file begins with its first name. -/
theorem down_cons_of_here {name : String} (hhere : base.components = [.here])
    (h : IsPart name) : base.down (name :: names) = names.foldl join ⟨name⟩ := by
  rw [down, if_pos hhere, List.foldl_cons]
  simp [join, h.head?_ne_slash]

theorem components_down_of_here (hhere : base.components = [.here])
    (h : ∀ name ∈ names, IsEntryName name) : (base.down names).components = names.map .name := by
  cases names with
  | nil =>
    rw [down, if_pos hhere]
    rfl
  | cons name rest =>
    simp only [List.forall_mem_cons] at h
    have hpart := h.1.toIsPart
    have hone : (Path.mk name).components = [.name name] := by
      rw [components_mk hpart h.1.ne_here, filterMap_component? (by simpa using h.1)]
      rfl
    rw [down_cons_of_here hhere hpart,
      components_joins h.1.ne_empty fun n hn => (h.2 n hn).toIsPart, hone, filterMap_component? h.2]
    rfl

end Path

namespace FileSystem

variable {fs : FileSystem} {depth linksLeft : Nat} {linked : Bool} {loc : Location} {n : Node}
  {names : Location} {f : FoundFile}

/-! ## What a search finds -/

/-- What a search finds at one entry of a directory. -/
def filesAt (fs : FileSystem) (depth : Nat) (linked : Bool) (linksLeft : Nat) (loc : Location)
    (e : String × Node) : List FoundFile :=
  match e.2 with
  | .file _ => [⟨[e.1], linked⟩]
  | .dir _ => (fs.filesWithin depth linked linksLeft (loc ++ [e.1])).map (·.under e.1)
  | .link _ =>
    match fs.walk false linksLeft loc [e.1] with
    | .ok (.taken target (.dir _) left) =>
      (fs.filesWithin depth true left target).map (·.under e.1)
    | _ => []

theorem filesWithin_succ (hat : fs.top.at? loc = some n) :
    fs.filesWithin (depth + 1) linked linksLeft loc =
      n.entries.flatMap (fs.filesAt depth linked linksLeft loc) := by
  simp only [filesWithin, hat]
  rfl

theorem filesWithin_eq_nil (hat : fs.top.at? loc = none) :
    fs.filesWithin depth linked linksLeft loc = [] := by
  cases depth with
  | zero => rfl
  | succ depth => simp [filesWithin, hat]

/-- A file found at an entry is that entry, or lies below it or where it links to. -/
theorem filesAt_cases {name : String} {m : Node}
    (h : f ∈ fs.filesAt depth linked linksLeft loc (name, m)) :
    (∃ bytes, m = .file bytes ∧ f = ⟨[name], linked⟩) ∨
    (∃ es g, m = .dir es ∧ g ∈ fs.filesWithin depth linked linksLeft (loc ++ [name]) ∧
      f = g.under name) ∨
    (∃ target goal left g, m = .link target ∧ g ∈ fs.filesWithin depth true left goal ∧
      f = g.under name) := by
  cases m with
  | file bytes => exact Or.inl ⟨bytes, rfl, List.mem_singleton.1 h⟩
  | dir es =>
    obtain ⟨g, hg, rfl⟩ := List.mem_map.1 h
    exact Or.inr (Or.inl ⟨es, g, rfl, hg, rfl⟩)
  | link target =>
    simp only [filesAt] at h
    split at h
    · obtain ⟨g, hg, rfl⟩ := List.mem_map.1 h
      exact Or.inr (Or.inr ⟨target, _, _, g, rfl, hg, rfl⟩)
    · cases h

/-- What a search finds it finds at an entry of the directory. -/
theorem exists_entry_of_mem_filesWithin
    (h : f ∈ fs.filesWithin (depth + 1) linked linksLeft loc) :
    ∃ n name m, fs.top.at? loc = some n ∧ (name, m) ∈ n.entries ∧
      f ∈ fs.filesAt depth linked linksLeft loc (name, m) := by
  cases hat : fs.top.at? loc with
  | none => simp [filesWithin_eq_nil hat] at h
  | some n =>
    rw [filesWithin_succ hat] at h
    obtain ⟨⟨name, m⟩, hentry, hf⟩ := List.mem_flatMap.1 h
    exact ⟨n, name, m, rfl, hentry, hf⟩

/-- The names of a file found at an entry begin with the entry's. -/
theorem names_of_mem_filesAt {name : String} {m : Node}
    (h : f ∈ fs.filesAt depth linked linksLeft loc (name, m)) : f.names.head? = some name := by
  obtain ⟨-, -, rfl⟩ | ⟨-, g, -, -, rfl⟩ | ⟨_, _, _, g, -, -, rfl⟩ := filesAt_cases h <;> rfl

/-- A search behind a link says so of all that it finds. -/
theorem linked_of_mem_filesWithin (h : f ∈ fs.filesWithin depth true linksLeft loc) :
    f.linked = true := by
  induction depth generalizing linksLeft loc f with
  | zero => cases h
  | succ depth ih =>
    obtain ⟨n, name, m, -, -, hf⟩ := exists_entry_of_mem_filesWithin h
    obtain ⟨-, -, rfl⟩ | ⟨-, g, -, hg, rfl⟩ | ⟨_, _, _, g, -, hg, rfl⟩ := filesAt_cases hf
    · rfl
    · exact (ih hg : g.linked = true)
    · exact (ih hg : g.linked = true)

/-- All names on the way to a file are entry names. -/
theorem isEntryName_of_mem_filesWithin (hfs : fs.top.Proper)
    (h : f ∈ fs.filesWithin depth linked linksLeft loc) : ∀ name ∈ f.names, IsEntryName name := by
  induction depth generalizing linked linksLeft loc f with
  | zero => cases h
  | succ depth ih =>
    obtain ⟨n, name, m, hat, hentry, hf⟩ := exists_entry_of_mem_filesWithin h
    have hname := (hfs.at? hat).isEntryName hentry
    obtain ⟨-, -, rfl⟩ | ⟨-, g, -, hg, rfl⟩ | ⟨_, _, _, g, -, hg, rfl⟩ := filesAt_cases hf
    · simpa using hname
    · exact List.forall_mem_cons.2 ⟨hname, ih hg⟩
    · exact List.forall_mem_cons.2 ⟨hname, ih hg⟩

/-- Behind no link a search finds files of the tree. -/
theorem at?_of_mem_filesWithin (hfs : fs.top.Proper) (hat : fs.top.at? loc = some n)
    (h : f ∈ fs.filesWithin depth linked linksLeft loc) (hf : f.linked = false) :
    ∃ bytes, n.at? f.names = some (.file bytes) := by
  induction depth generalizing linked linksLeft loc n f with
  | zero => cases h
  | succ depth ih =>
    obtain ⟨n', name, m, hat', hentry, hmem⟩ := exists_entry_of_mem_filesWithin h
    cases hat.symm.trans hat'
    have hchild : n.child? name = some m := (hfs.at? hat).child?_eq_some_iff.2 hentry
    obtain ⟨bytes, rfl, rfl⟩ | ⟨es, g, rfl, hg, rfl⟩ | ⟨_, _, _, g, -, hg, rfl⟩ :=
      filesAt_cases hmem
    · exact ⟨bytes, by simp [Node.at?, hchild]⟩
    · have hnext : fs.top.at? (loc ++ [name]) = some (.dir es) := by
        rw [Node.at?_concat, hat]
        exact hchild
      obtain ⟨bytes, hbytes⟩ := ih hnext hg hf
      exact ⟨bytes, by simpa [FoundFile.under, Node.at?, hchild] using hbytes⟩
    · have hlinked : g.linked = true := linked_of_mem_filesWithin hg
      exact absurd (hlinked.symm.trans hf) (by decide)

/-- A search that goes deep enough finds every file of the tree. -/
theorem mem_filesWithin_of_at? {bytes : List UInt8} (hat : fs.top.at? loc = some n)
    (hdir : n.isDir = true) (hdepth : n.height ≤ depth)
    (h : n.at? names = some (.file bytes)) :
    ⟨names, linked⟩ ∈ fs.filesWithin depth linked linksLeft loc := by
  induction depth generalizing loc n names with
  | zero =>
    cases n with
    | dir es => exact absurd hdepth (Nat.not_succ_le_zero _)
    | file bytes => cases hdir
    | link target => cases hdir
  | succ depth ih =>
    cases names with
    | nil =>
      cases h
      cases hdir
    | cons name rest =>
      obtain ⟨m, hchild, hrest⟩ := Option.bind_eq_some_iff.1 h
      have hentry := (Node.mem_of_child? hchild).2
      have hnext : fs.top.at? (loc ++ [name]) = some m := by
        rw [Node.at?_concat, hat]
        exact hchild
      rw [filesWithin_succ hat]
      refine List.mem_flatMap.2 ⟨(name, m), hentry, ?_⟩
      cases m with
      | dir es =>
        have hlow : (Node.dir es).height ≤ depth :=
          Nat.le_of_lt_succ (Nat.lt_of_lt_of_le (Node.height_lt_of_entry hentry) hdepth)
        exact List.mem_map.2 ⟨⟨rest, linked⟩, ih hnext rfl hlow hrest, rfl⟩
      | file bytes =>
        cases Node.eq_nil_of_at? rfl hrest
        exact List.mem_singleton.2 rfl
      | link target =>
        cases Node.eq_nil_of_at? rfl hrest
        cases hrest

/-- Behind no link no file is found twice. -/
theorem pairwise_filesWithin (hfs : fs.top.Proper) :
    (fs.filesWithin depth linked linksLeft loc).Pairwise fun f g =>
      f.linked = false → f.names ≠ g.names := by
  induction depth generalizing linked linksLeft loc with
  | zero => exact .nil
  | succ depth ih =>
    cases hat : fs.top.at? loc with
    | none => simp [filesWithin_eq_nil hat]
    | some n =>
      have hunder : ∀ (name : String) {linked : Bool} {left : Nat} {goal : Location},
          ((fs.filesWithin depth linked left goal).map (·.under name)).Pairwise fun f g =>
            f.linked = false → f.names ≠ g.names := fun name _ _ _ =>
        List.pairwise_map.2 (ih.imp fun h hf hnames => h hf (List.cons.inj hnames).2)
      rw [filesWithin_succ hat, List.pairwise_flatMap]
      constructor
      · rintro ⟨name, m⟩ -
        cases m with
        | file bytes => exact List.pairwise_singleton ..
        | dir es => exact hunder name
        | link target =>
          simp only [filesAt]
          split
          · exact hunder name
          · exact .nil
      · refine (hfs.at? hat).distinct.imp fun {e e'} hne f hf g hg _ hnames => hne ?_
        have hheads := names_of_mem_filesAt hf
        rw [hnames, names_of_mem_filesAt hg] at hheads
        exact (Option.some.inj hheads).symm

/-! ## The files of a search in order -/

/-- The names of the files below a location that are behind no link. -/
def ownFiles (fs : FileSystem) (linksLeft : Nat) (loc : Location) : List Location :=
  ((fs.filesWithin fs.depthBound false linksLeft loc).filter (!·.linked)).map FoundFile.names

theorem mem_ownFiles_iff (hfs : fs.top.Proper) (hat : fs.top.at? loc = some n)
    (hdir : n.isDir = true) :
    names ∈ fs.ownFiles linksLeft loc ↔ ∃ bytes, n.at? names = some (.file bytes) := by
  constructor
  · intro h
    obtain ⟨f, hf, rfl⟩ := List.mem_map.1 h
    obtain ⟨hf, hlinked⟩ := List.mem_filter.1 hf
    exact at?_of_mem_filesWithin hfs hat hf (by simpa using hlinked)
  · rintro ⟨bytes, h⟩
    have hdepth : n.height ≤ fs.depthBound :=
      calc n.height ≤ fs.top.height := Node.height_le_of_at? hat
        _ ≤ 1 * (fs.top.height + 1) := by omega
        _ ≤ fs.depthBound := Nat.mul_le_mul_right _ (by decide)
    have hf : ⟨names, false⟩ ∈ fs.filesWithin fs.depthBound false linksLeft loc :=
      mem_filesWithin_of_at? hat hdir hdepth h
    exact List.mem_map.2 ⟨⟨names, false⟩, List.mem_filter.2 ⟨hf, rfl⟩, rfl⟩

theorem nodup_ownFiles (hfs : fs.top.Proper) : (fs.ownFiles linksLeft loc).Nodup := by
  refine List.pairwise_map.2 (List.pairwise_filter.2 ?_)
  exact (pairwise_filesWithin hfs).imp fun h hf _ => h (by simpa using hf)

/-- Files of a directory, each once, in the order of their names. -/
structure IsListing (files : List Location) (dir : Node) : Prop where
  sorted : files.Pairwise (· < ·)
  mem_iff : ∀ names, names ∈ files ↔ ∃ bytes, dir.at? names = some (.file bytes)

theorem isListing_mergeSort (hfs : fs.top.Proper) (hat : fs.top.at? loc = some n)
    (hdir : n.isDir = true) : IsListing ((fs.ownFiles linksLeft loc).mergeSort (· ≤ ·)) n where
  sorted := by
    have hle : ((fs.ownFiles linksLeft loc).mergeSort (· ≤ ·)).Pairwise
        fun a b => decide (a ≤ b) = true :=
      List.pairwise_mergeSort (fun a b c hab hbc => by simp at *; exact le_trans hab hbc)
        (fun a b => by simpa using le_total a b) _
    have hne : ((fs.ownFiles linksLeft loc).mergeSort (· ≤ ·)).Nodup :=
      (List.mergeSort_perm ..).nodup_iff.2 (nodup_ownFiles hfs)
    exact (hle.and hne).imp fun h => lt_of_le_of_ne (by simpa using h.1) h.2
  mem_iff names := by rw [List.mem_mergeSort, mem_ownFiles_iff hfs hat hdir]

/-- A search that leaves out what it finds behind links lists the files of the directory. -/
theorem filesBelow_eq {root base : Path} {above : List Component} {es : List (String × Node)}
    {left : Nat} (hfs : fs.top.Proper) (hbase : fs.searchBase? root = some base)
    (hfind : fs.find false base = .ok (.taken loc (.dir es) left))
    (hcomponents : ∀ names : Location, (∀ name ∈ names, IsEntryName name) →
      (base.down names).components = above ++ names.map .name)
    (hlinked : ∀ f ∈ fs.filesWithin fs.depthBound false left loc, f.linked = true →
      (base.down f.names).startsWith root = true) :
    ∃ files, IsListing files (.dir es) ∧ fs.filesBelow root = files.map base.down := by
  have hat := at?_of_find hfind
  refine ⟨(fs.ownFiles left loc).mergeSort (· ≤ ·), isListing_mergeSort hfs hat rfl, ?_⟩
  have hnames : ∀ names ∈ fs.ownFiles left loc, ∀ name ∈ names, IsEntryName name := by
    intro names h
    obtain ⟨bytes, hbytes⟩ := (mem_ownFiles_iff hfs hat rfl).1 h
    exact (hfs.at? hat).isEntryName_of_at? hbytes
  have hfilter : (fs.filesWithin fs.depthBound false left loc).filterMap (fun f =>
      if f.linked ∧ (f.path base).startsWith root then none else some (f.path base)) =
        (fs.ownFiles left loc).map base.down := by
    rw [ownFiles, List.map_map, ← List.filterMap_eq_map, List.filterMap_filter]
    refine List.filterMap_congr fun f hf => ?_
    cases hlink : f.linked with
    | false => simp [FoundFile.path_eq]
    | true => simp [FoundFile.path_eq, hlinked f hf hlink]
  have hsort : Path.sort ((fs.ownFiles left loc).map base.down) =
      ((fs.ownFiles left loc).mergeSort (· ≤ ·)).map base.down :=
    (List.map_mergeSort fun a ha b hb => by
      rw [hcomponents a (hnames a ha), hcomponents b (hnames b hb),
        Component.inOrder_names]).symm
  rw [← hsort, ← hfilter, filesBelow, hbase]
  simp only [hfind]

end FileSystem

end ApexSyntax
