-- Kinds that are asked for more than once. A check goes through the files once for every
-- kind in its list, so what it reports for a kind it reports as often as the kind is listed.
import ApexSyntax.Proofs.Check.FileRoots
import ApexSyntax.Proofs.FileSystem.Links
import Mathlib.Data.List.Flatten

namespace ApexSyntax

/-! ## Lists without repetitions -/

section Repetitions

variable {α β : Type} [DecidableEq α]

theorem nodup_eraseDups : ∀ l : List α, l.eraseDups.Nodup
  | [] => .nil
  | a :: l => by
    rw [List.eraseDups_cons, List.nodup_cons, List.mem_eraseDups]
    exact ⟨by simp, nodup_eraseDups _⟩
termination_by l => l.length
decreasing_by exact Nat.lt_succ_of_le (List.length_filter_le ..)

theorem eraseDups_sublist : ∀ l : List α, l.eraseDups.Sublist l
  | [] => .slnil
  | a :: l => by
    rw [List.eraseDups_cons]
    exact .cons_cons a ((eraseDups_sublist _).trans List.filter_sublist)
termination_by l => l.length
decreasing_by exact Nat.lt_succ_of_le (List.length_filter_le ..)

/-- Repetitions make no difference to a list of results where what is repeated has none. -/
theorem flatMap_eq_flatMap_eraseDups_iff {l : List α} {f : α → List β} :
    l.flatMap f = l.eraseDups.flatMap f ↔ ∀ a, 1 < l.count a → f a = [] := by
  obtain ⟨again, hperm⟩ := (eraseDups_sublist l).exists_perm_append
  have hagain : ∀ a, a ∈ again ↔ 1 < l.count a := by
    intro a
    have hcount : l.count a = l.eraseDups.count a + again.count a := by
      rw [hperm.count_eq, List.count_append]
    have honce : l.eraseDups.count a ≤ 1 := List.nodup_iff_count_le_one.1 (nodup_eraseDups l) a
    have hmem : 0 < l.count a ↔ 0 < l.eraseDups.count a := by
      rw [List.count_pos_iff, List.count_pos_iff, List.mem_eraseDups]
    rw [← List.count_pos_iff]
    omega
  have hlength : (l.flatMap f).length =
      (l.eraseDups.flatMap f).length + (again.flatMap f).length := by
    rw [(hperm.flatMap_right f).length_eq, List.flatMap_append, List.length_append]
  constructor
  · intro h a ha
    have hnone : again.flatMap f = [] := by
      rw [← List.length_eq_zero_iff]
      rw [h] at hlength
      omega
    exact List.flatMap_eq_nil_iff.1 hnone a ((hagain a).2 ha)
  · intro h
    have hnone : again.flatMap f = [] :=
      List.flatMap_eq_nil_iff.2 fun a ha => h a ((hagain a).1 ha)
    refine (((eraseDups_sublist l).flatMap f).eq_of_length ?_).symm
    rw [hlength, hnone, List.length_nil, Nat.add_zero]

end Repetitions

namespace FileSystem

variable {fs : FileSystem} {root p : Path} {kinds : List FileKind}

/-! ## What a check reports for one kind -/

/-- Every file that a search lists can be read. -/
theorem exists_read_of_mem_filesBelow (hfs : fs.top.Proper) (hroot : fs.exists root = true)
    (h : p ∈ fs.filesBelow root) : ∃ bytes, fs.read p = .ok bytes := by
  obtain ⟨loc, n, left, hfind⟩ := exists_iff.1 hroot
  cases hbase : fs.searchBase? root with
  | none => simp [filesBelow, hbase] at h
  | some base =>
    have hbegins := begins_of_searchBase? hfind hbase
    have hfindBase := hbegins.find.trans hfind
    cases n with
    | file bytes => simp [filesBelow, hbase, hfindBase] at h
    | link target => simp [filesBelow, hbase, hfindBase] at h
    | dir es =>
      obtain ⟨names, hfile, -⟩ := (mem_filesBelow_iff hfs hbase hbegins hfindBase).1 h
      obtain ⟨m, hitself, hm⟩ := (Option.any_eq_true ..).1 hfile.file
      cases m with
      | file bytes => exact ⟨bytes, by rw [read, node_of_itself? rfl hitself]⟩
      | dir es => cases hm
      | link target => cases hm

/-- A check of what exists is clean. Kind by kind it gives the errors of the files below, which
do not depend on the kinds that are asked for. -/
theorem exists_found (hfs : fs.top.Proper) (hroot : fs.exists root = true) :
    ∃ found : FileKind → Path → List Diagnostic,
      (∀ file ∈ fs.filesBelow root, ∀ k, fs.checkFile root file k = .ok (found k file)) ∧
      ∀ kinds, (fs.checkKinds root kinds).1 = ⟨.clean, kinds.map FileKind.extension,
        kinds.flatMap fun k => ((fs.filesBelow root).filter (·.hasKind k)).flatMap (found k)⟩ := by
  have hread : ∀ (k : FileKind) (file : Path), ∃ found,
      file ∈ fs.filesBelow root → fs.checkFile root file k = .ok found := by
    intro k file
    by_cases hfile : file ∈ fs.filesBelow root
    · obtain ⟨bytes, hbytes⟩ := exists_read_of_mem_filesBelow hfs hroot hfile
      obtain ⟨found, -, hfound⟩ := exists_checkFile hbytes root k
      exact ⟨found, fun _ => hfound⟩
    · exact ⟨[], fun h => absurd h hfile⟩
  choose found hfound using hread
  refine ⟨found, fun file hfile k => hfound k file hfile, fun kinds => ?_⟩
  obtain ⟨events, hfiles⟩ : ∃ events, fs.checkFiles root ((fs.filesBelow root).map id) kinds {} =
      (⟨[] ++ kinds.flatMap fun k =>
          ((fs.filesBelow root).filter (·.hasKind k)).flatMap (found k), events⟩, none) :=
    checkFiles_eq kinds hfound {}
  rw [List.map_id] at hfiles
  simp [checkKinds, hroot, hfiles]

theorem status_checkKinds (hfs : fs.top.Proper) (kinds : List FileKind) :
    (fs.checkKinds root kinds).1.status = if fs.exists root then .clean else .missing := by
  cases hroot : fs.exists root with
  | false => exact status_checkKinds_eq_missing_iff.2 hroot
  | true =>
    obtain ⟨found, -, hcheck⟩ := exists_found hfs hroot
    rw [hcheck]
    rfl

/-- The errors of a check are those of the checks for its kinds, one after the other. -/
theorem errors_checkKinds (hfs : fs.top.Proper) (kinds : List FileKind) :
    (fs.checkKinds root kinds).1.errors =
      kinds.flatMap fun k => (fs.checkKinds root [k]).1.errors := by
  cases hroot : fs.exists root with
  | false => simp [checkKinds, hroot]
  | true =>
    obtain ⟨found, -, hcheck⟩ := exists_found hfs hroot
    simp [hcheck]

/-! ## Repeated requests -/

/-- A check reports the errors of a kind as often as its request lists the kind, in whatever
spelling. So a request with repetitions gives the errors of the request without them exactly
where the files of every repeated kind have none. -/
theorem repeated_kinds_report_again {extensions once : List String} {kinds : List FileKind}
    (hfs : fs.top.Proper)
    (hkinds : kinds.map FileKind.extension =
      if extensions = [] then [".cls", ".trigger"] else extensions.map FileKind.dotted)
    (honce : kinds.eraseDups.map FileKind.extension =
      if once = [] then [".cls", ".trigger"] else once.map FileKind.dotted) :
    (fs.checkPath root extensions).1.status = (fs.checkPath root once).1.status ∧
    (fs.checkPath root extensions).1.errors =
      kinds.flatMap (fun k => (fs.checkPath root [k.extension]).1.errors) ∧
    (fs.checkPath root once).1.errors =
      kinds.eraseDups.flatMap (fun k => (fs.checkPath root [k.extension]).1.errors) ∧
    ((fs.checkPath root extensions).1.errors = (fs.checkPath root once).1.errors ↔
      ∀ k, 1 < kinds.count k → (fs.checkPath root [k.extension]).1.errors = []) := by
  have hcheck : ∀ {written : List String} {kinds : List FileKind},
      kinds.map FileKind.extension =
        (if written = [] then [".cls", ".trigger"] else written.map FileKind.dotted) →
      fs.checkPath root written = fs.checkKinds root kinds := fun h => by
    rw [checkPath, FileKind.requested_eq_ok h]
  have hone : ∀ k : FileKind, fs.checkPath root [k.extension] = fs.checkKinds root [k] := fun k =>
    hcheck (by simp [FileKind.dotted_extension])
  simp only [hcheck hkinds, hcheck honce, hone]
  have hall : (fs.checkKinds root kinds).1.errors =
      kinds.flatMap fun k => (fs.checkKinds root [k]).1.errors := errors_checkKinds hfs kinds
  have hrest : (fs.checkKinds root kinds.eraseDups).1.errors =
      kinds.eraseDups.flatMap fun k => (fs.checkKinds root [k]).1.errors := errors_checkKinds hfs _
  refine ⟨by rw [status_checkKinds hfs, status_checkKinds hfs], hall, hrest, ?_⟩
  rw [hall, hrest]
  exact flatMap_eq_flatMap_eraseDups_iff

/-- The class that lacks its last brace is reported twice where its kind is asked for in both
spellings. -/
theorem repeated_kinds_report_again_oneClass :
    oneClass.top.Proper ∧
    [FileKind.classFile, .classFile].map FileKind.extension =
      ["cls", ".cls"].map FileKind.dotted ∧
    [FileKind.classFile].map FileKind.extension = ["cls"].map FileKind.dotted ∧
    (oneClass.checkPath ⟨"src"⟩ ["cls", ".cls"]).1.errors ≠
      (oneClass.checkPath ⟨"src"⟩ ["cls"]).1.errors := by
  have hkinds : [FileKind.classFile, .classFile].map FileKind.extension =
      if ["cls", ".cls"] = ([] : List String) then [".cls", ".trigger"]
      else ["cls", ".cls"].map FileKind.dotted := rfl
  have honce : [FileKind.classFile, .classFile].eraseDups.map FileKind.extension =
      if ["cls"] = ([] : List String) then [".cls", ".trigger"]
      else ["cls"].map FileKind.dotted := rfl
  refine ⟨proper_oneClass, rfl, rfl, fun hsame => ?_⟩
  obtain ⟨-, -, -, hiff⟩ := repeated_kinds_report_again proper_oneClass hkinds honce
  exact absurd (hiff.1 hsame .classFile (by decide)) (by decide +kernel)

/-- A request for the same kind in a second spelling changes the errors. -/
theorem second_spelling_changes_errors :
    ¬ ∀ (fs : FileSystem) (root : Path) (extensions once : List String) (kinds : List FileKind),
      fs.top.Proper → kinds.map FileKind.extension = extensions.map FileKind.dotted →
      kinds.eraseDups.map FileKind.extension = once.map FileKind.dotted →
      (fs.checkPath root extensions).1.errors = (fs.checkPath root once).1.errors := by
  intro h
  have hsame := h oneClass ⟨"src"⟩ ["cls", ".cls"] ["cls"] [.classFile, .classFile]
    proper_oneClass rfl rfl
  have hlength : (oneClass.checkPath ⟨"src"⟩ ["cls", ".cls"]).1.errors.length ≠
      (oneClass.checkPath ⟨"src"⟩ ["cls"]).1.errors.length := by decide +kernel
  exact hlength (congrArg List.length hsame)

end FileSystem

end ApexSyntax
