-- How paths lead through a tree. A walk over more parts is a walk over some of them
-- and then over the others; so a path with more parts leads on from where it led.
import ApexSyntax.Proofs.FileSystem.Trees

namespace ApexSyntax

namespace FileSystem

variable {fs : FileSystem} {keepLast : Bool} {linksLeft : Nat} {loc : Location} {part : String}
  {front back names : List String} {r : Except ReadError Reached}

/-! ## Walks in parts -/

/-- Goes on over some parts from where a path leads. With `keepLast` the walk may end at a
link. -/
def goOnBy (fs : FileSystem) (keepLast : Bool) (parts : List String) :
    Except ReadError Reached → Except ReadError Reached
  | .ok (.taken loc _ linksLeft) => fs.walk keepLast linksLeft loc parts
  | .ok (.free _ _) => .error .notFound
  | .error e => .error e

/-- Goes on over some parts from where a path leads. -/
def goOn (fs : FileSystem) (parts : List String) :
    Except ReadError Reached → Except ReadError Reached := fs.goOnBy false parts

@[simp] theorem goOnBy_taken {n : Node} :
    fs.goOnBy keepLast back (.ok (.taken loc n linksLeft)) = fs.walk keepLast linksLeft loc back :=
  rfl

@[simp] theorem goOnBy_free : fs.goOnBy keepLast back (.ok (.free loc part)) = .error .notFound :=
  rfl

@[simp] theorem goOnBy_error {e : ReadError} : fs.goOnBy keepLast back (.error e) = .error e := rfl

@[simp] theorem goOn_taken {n : Node} :
    fs.goOn back (.ok (.taken loc n linksLeft)) = fs.walk false linksLeft loc back := rfl

@[simp] theorem goOn_free : fs.goOn back (.ok (.free loc part)) = .error .notFound := rfl

@[simp] theorem goOn_error {e : ReadError} : fs.goOn back (.error e) = .error e := rfl

/-- Where links are followed in parts, so is the path. -/
theorem walkBy_append {follow followAll : Location → List String → Except ReadError Reached}
    (hback : back ≠ []) (hwalk : fs.walk keepLast linksLeft = fs.walkBy keepLast linksLeft followAll)
    (hfollow : ∀ loc front,
      followAll loc (front ++ back) = fs.goOnBy keepLast back (follow loc front)) :
    fs.walkBy keepLast linksLeft followAll loc (front ++ back) =
      fs.goOnBy keepLast back (fs.walkBy false linksLeft follow loc front) := by
  induction front generalizing loc with
  | nil =>
    obtain ⟨part, rest, rfl⟩ := List.exists_cons_of_ne_nil hback
    cases hat : fs.top.at? loc with
    | none => simp [walkBy, hat]
    | some n => simp [walkBy, hat, hwalk]
  | cons part rest ih =>
    simp only [List.cons_append, walkBy]
    cases fs.top.at? loc with
    | none => rfl
    | some n =>
      cases n with
      | file bytes => rfl
      | link target => rfl
      | dir es =>
        simp only
        split
        · exact ih
        · split
          · exact ih
          · split
            · rfl
            · cases es.lookup part with
              | none => by_cases hr : rest = [] <;> simp [hr, hback]
              | some n =>
                cases n with
                | file bytes => exact ih
                | dir entries => exact ih
                | link target =>
                  have hlast : ¬(keepLast = true ∧ rest ++ back = []) := by simp [hback]
                  simp only [hlast, Bool.false_eq_true, false_and, if_false, ← hfollow,
                    List.append_assoc]

/-- A walk over some parts and others goes over the others from where the first ones lead. -/
theorem walk_append_by (hback : back ≠ []) :
    fs.walk keepLast linksLeft loc (front ++ back) =
      fs.goOnBy keepLast back (fs.walk false linksLeft loc front) := by
  induction linksLeft generalizing loc front with
  | zero => exact walkBy_append hback rfl fun _ _ => rfl
  | succ n ih => exact walkBy_append hback rfl fun _ _ => ih

theorem walk_append (hback : back ≠ []) :
    fs.walk false linksLeft loc (front ++ back) =
      fs.goOn back (fs.walk false linksLeft loc front) := walk_append_by hback

/-- More parts lead on from where the first one leads. -/
theorem walk_cons (hback : back ≠ []) :
    fs.walk keepLast linksLeft loc (part :: back) =
      fs.goOnBy keepLast back (fs.walk false linksLeft loc [part]) := by
  rw [← walk_append_by hback, List.singleton_append]

theorem goOnBy_goOn (hback : back ≠ []) :
    fs.goOnBy keepLast back (fs.goOn front r) = fs.goOnBy keepLast (front ++ back) r := by
  rcases r with e | ⟨loc, n, left⟩ | ⟨loc, name⟩
  · rfl
  · exact (walk_append_by hback).symm
  · rfl

theorem goOn_goOn (hback : back ≠ []) :
    fs.goOn back (fs.goOn front r) = fs.goOn (front ++ back) r := goOnBy_goOn hback

theorem taken_of_goOn {reached : Reached} (h : fs.goOn back r = .ok reached) :
    ∃ loc n left, r = .ok (.taken loc n left) := by
  rcases r with e | ⟨loc, n, left⟩ | ⟨loc, name⟩
  · cases h
  · exact ⟨loc, n, left, rfl⟩
  · cases h

theorem walk_eq_walkBy (fs : FileSystem) (keepLast : Bool) (linksLeft : Nat) : ∃ follow,
    fs.walk keepLast linksLeft = fs.walkBy keepLast linksLeft follow := by
  cases linksLeft with
  | zero => exact ⟨_, rfl⟩
  | succ n => exact ⟨_, rfl⟩

/-- An empty part or a dot before another part changes nothing. -/
theorem walk_skip {skip : String} (hskip : skip = "" ∨ skip = ".") :
    fs.walk keepLast linksLeft loc (skip :: part :: back) =
      fs.walk keepLast linksLeft loc (part :: back) := by
  obtain ⟨follow, hfollow⟩ := fs.walk_eq_walkBy keepLast linksLeft
  rw [hfollow, walkBy, walkBy]
  cases hat : fs.top.at? loc with
  | none => rfl
  | some n =>
    cases n with
    | file bytes => rfl
    | link target => rfl
    | dir es => simp [hskip]

/-- A part can only be walked from a directory. -/
theorem isDir_of_walk {reached : Reached}
    (h : fs.walk false linksLeft loc (part :: back) = .ok reached) :
    ∃ es, fs.top.at? loc = some (.dir es) := by
  obtain ⟨follow, hfollow⟩ := fs.walk_eq_walkBy false linksLeft
  rw [hfollow] at h
  cases hat : fs.top.at? loc with
  | none => simp [walkBy, hat] at h
  | some n =>
    cases n with
    | file bytes => simp [walkBy, hat] at h
    | link target => simp [walkBy, hat] at h
    | dir es => exact ⟨es, rfl⟩

/-- A dot stays in the directory. -/
theorem walk_here {es : List (String × Node)} (hat : fs.top.at? loc = some (.dir es)) :
    fs.walk false linksLeft loc ["."] = .ok (.taken loc (.dir es) linksLeft) := by
  obtain ⟨follow, hfollow⟩ := fs.walk_eq_walkBy false linksLeft
  rw [hfollow]
  simp [walkBy, hat]

/-! ## Walks along names -/

/-- A name of a file or a directory leads to it. -/
theorem walk_names {n m : Node} (hat : fs.top.at? loc = some n) (hn : n.Proper)
    (hm : n.at? names = some m) (hlink : ∀ target, m ≠ .link target) :
    fs.walk false linksLeft loc names = .ok (.taken (loc ++ names) m linksLeft) := by
  obtain ⟨follow, hfollow⟩ := fs.walk_eq_walkBy false linksLeft
  rw [hfollow]
  induction names generalizing loc n with
  | nil =>
    cases hm
    simp [walkBy, hat]
  | cons name rest ih =>
    obtain ⟨next, hnext, hrest⟩ := Option.bind_eq_some_iff.1 hm
    obtain ⟨hdir, hmem⟩ := Node.mem_of_child? hnext
    have hname := hn.isEntryName hmem
    have hloc : fs.top.at? (loc ++ [name]) = some next := by
      rw [Node.at?_concat, hat]
      exact hnext
    have hlookup : n.entries.lookup name = some next := hnext
    have hgo := ih hloc (hn.entry hmem) hrest
    rw [List.append_assoc, List.singleton_append] at hgo
    rw [walkBy, hat, hdir]
    simp only [hname.ne_empty, hname.ne_here, hname.ne_up, or_self, if_false,
      Nat.not_lt.2 hname.short, hlookup]
    cases next with
    | file bytes => exact hgo
    | dir entries => exact hgo
    | link target =>
      cases Node.eq_nil_of_at? rfl hrest
      exact absurd (Option.some.inj hrest).symm (hlink target)

theorem at?_of_walkBy {follow : Location → List String → Except ReadError Reached} {goal : Location}
    {n : Node} {left : Nat}
    (hfollow : ∀ loc names, follow loc names = .ok (.taken goal n left) →
      fs.top.at? goal = some n)
    (h : fs.walkBy false linksLeft follow loc names = .ok (.taken goal n left)) :
    fs.top.at? goal = some n := by
  induction names generalizing loc with
  | nil =>
    cases hat : fs.top.at? loc with
    | none => simp [walkBy, hat] at h
    | some m =>
      simp only [walkBy, hat, Except.ok.injEq, Reached.taken.injEq] at h
      obtain ⟨rfl, rfl, -⟩ := h
      exact hat
  | cons part rest ih =>
    simp only [walkBy] at h
    split at h
    · split at h
      · exact ih h
      · split at h
        · exact ih h
        · split at h
          · cases h
          · split at h
            · split at h <;> cases h
            · simp only [Bool.false_eq_true, false_and, if_false] at h
              exact hfollow _ _ h
            · exact ih h
    · cases h
    · cases h

/-- What a walk comes to stands where it ends. -/
theorem at?_of_walk {goal : Location} {n : Node} {left : Nat}
    (h : fs.walk false linksLeft loc names = .ok (.taken goal n left)) :
    fs.top.at? goal = some n := by
  induction linksLeft generalizing loc names with
  | zero => exact at?_of_walkBy (fun _ _ hend => by cases hend) h
  | succ k ih => exact at?_of_walkBy (fun _ _ hend => ih hend) h

/-! ## Paths with more parts -/

/-- A path with one more part leads on from where it led. -/
theorem find_join_by {p : Path} (hp : p.text ≠ "") (h : IsPart part) :
    fs.find keepLast (p.join part) = fs.goOnBy keepLast [part] (fs.find false p) := by
  have hnul := Path.nul_mem_join (p := p) h
  have hwalk : ∀ loc, fs.walk keepLast maxLinks loc (p.join part).parts =
      fs.goOnBy keepLast [part] (fs.walk false maxLinks loc p.parts) := by
    intro loc
    rcases Path.parts_join hp h with hparts | ⟨front, -, hparts, hjoin⟩
    · rw [hparts, walk_append_by (by simp)]
    · rw [hparts, hjoin, ← walk_append_by (by simp), List.append_assoc, List.singleton_append,
        walk_append_by (by simp), walk_append_by (by simp)]
      cases hfront : fs.walk false maxLinks loc front with
      | error e => rfl
      | ok reached => cases reached <;> simp [walk_skip]
  unfold find
  by_cases hmem : '\x00' ∈ p.text.toList
  · simp [hmem, hnul]
  · simp [hmem, hnul, hp, Path.text_join_ne_empty hp h, Path.isAbsolute_join hp h, hwalk]

theorem find_join {p : Path} (hp : p.text ≠ "") (h : IsPart part) :
    fs.find false (p.join part) = fs.goOn [part] (fs.find false p) := find_join_by hp h

theorem find_joins_by {p : Path} (hp : p.text ≠ "") (h : ∀ part ∈ names, IsPart part)
    (hne : names ≠ []) :
    fs.find keepLast (names.foldl Path.join p) = fs.goOnBy keepLast names (fs.find false p) := by
  induction names generalizing p with
  | nil => exact absurd rfl hne
  | cons part rest ih =>
    simp only [List.forall_mem_cons] at h
    cases hrest : rest with
    | nil => exact find_join_by hp h.1
    | cons next more =>
      have hmore : rest ≠ [] := by simp [hrest]
      rw [← hrest, List.foldl_cons, ih (Path.text_join_ne_empty hp h.1) h.2 hmore,
        find_join hp h.1, goOnBy_goOn hmore, List.singleton_append]

theorem find_joins {p : Path} (hp : p.text ≠ "") (h : ∀ part ∈ names, IsPart part)
    (hne : names ≠ []) :
    fs.find false (names.foldl Path.join p) = fs.goOn names (fs.find false p) :=
  find_joins_by hp h hne

/-! ## Where a search starts -/

theorem exists_iff {p : Path} :
    fs.exists p = true ↔ ∃ loc n left, fs.find false p = .ok (.taken loc n left) := by
  unfold «exists» node
  rcases fs.find false p with e | ⟨loc, n, left⟩ | ⟨loc, name⟩ <;> simp [Except.isOk, Except.toBool]

theorem exists_of_node {p : Path} {n : Node} (h : fs.node p = .ok n) : fs.exists p = true := by
  rw [«exists», h]
  rfl

theorem toOption_node_eq_none_iff {p : Path} :
    (fs.node p).toOption = none ↔ fs.exists p = false := by
  unfold «exists»
  cases fs.node p <;> simp [Except.toOption, Except.isOk, Except.toBool]

theorem find_eq {p : Path} (hp : p.text ≠ "") (hnul : '\x00' ∉ p.text.toList) :
    fs.find keepLast p =
      fs.walk keepLast maxLinks (if p.isAbsolute then [] else fs.workdir) p.parts := by
  simp [find, hp, hnul]

theorem text_of_find {p : Path} {reached : Reached} (h : fs.find false p = .ok reached) :
    p.text ≠ "" ∧ '\x00' ∉ p.text.toList := by
  unfold find at h
  by_cases hnul : '\x00' ∈ p.text.toList
  · simp [hnul] at h
  · by_cases hp : p.text = ""
    · simp [hp] at h
    · exact ⟨hp, hnul⟩

theorem at?_of_find {p : Path} {goal : Location} {n : Node} {left : Nat}
    (h : fs.find false p = .ok (.taken goal n left)) : fs.top.at? goal = some n := by
  obtain ⟨hp, hnul⟩ := text_of_find h
  exact at?_of_walk (find_eq hp hnul ▸ h)

theorem at?_of_node {p : Path} {n : Node} (h : fs.node p = .ok n) :
    ∃ goal, fs.top.at? goal = some n := by
  unfold node at h
  split at h
  · next goal m left hfind =>
    cases h
    exact ⟨goal, at?_of_find hfind⟩
  · cases h
  · cases h

theorem find_of_isDir {p : Path} (h : fs.isDir p = true) :
    ∃ loc es left, fs.find false p = .ok (.taken loc (.dir es) left) ∧
      fs.node p = .ok (.dir es) := by
  unfold isDir at h
  rcases hfind : fs.find false p with e | ⟨loc, n, left⟩ | ⟨loc, name⟩
  · simp [node, hfind, Except.toOption] at h
  · cases n with
    | dir es => exact ⟨loc, es, left, rfl, by simp [node, hfind]⟩
    | file bytes => simp [node, hfind, Except.toOption, Node.isDir] at h
    | link target => simp [node, hfind, Except.toOption, Node.isDir] at h
  · simp [node, hfind, Except.toOption] at h

theorem isDir_of_find {p : Path} {es : List (String × Node)} {left : Nat}
    (h : fs.find false p = .ok (.taken loc (.dir es) left)) : fs.isDir p = true := by
  simp [isDir, node, h, Except.toOption, Node.isDir]

/-- The names down to a directory lead to it. -/
theorem find_joins_of_at? {p : Path} {names : Location} {es es' : List (String × Node)}
    {left : Nat} (hfs : fs.top.Proper)
    (hfind : fs.find false p = .ok (.taken loc (.dir es) left))
    (hat : (Node.dir es).at? names = some (.dir es')) :
    fs.find false (names.foldl Path.join p) = .ok (.taken (loc ++ names) (.dir es') left) := by
  have hplace := at?_of_find hfind
  have hproper := hfs.at? hplace
  by_cases hnil : names = []
  · subst hnil
    cases hat
    rw [List.foldl_nil, List.append_nil, hfind]
  · have hparts : ∀ name ∈ names, IsPart name := fun name hname =>
      (hproper.isEntryName_of_at? hat name hname).toIsPart
    rw [find_joins (text_of_find hfind).1 hparts hnil, hfind, goOn_taken,
      walk_names hplace hproper hat (by simp)]

/-- One step of a search towards a root. -/
def enter? (fs : FileSystem) (here : Path) (part : String) : Option Path :=
  let next := if here.components = [.here] then ⟨part⟩ else here.join part
  if fs.exists next then some next else none

theorem searchBase?_eq (fs : FileSystem) (root : Path) :
    fs.searchBase? root =
      root.parts.foldl (fun base part => base.bind (fs.enter? · part))
        (some (if root.isAbsolute then ⟨"/"⟩ else ⟨"."⟩)) := rfl

/-- A search enters every directory on the way to something that exists. -/
theorem foldl_enter? {b : Path} {parts : List String} (hb : b.text ≠ "")
    (hhere : b.components ≠ [.here]) (hparts : ∀ part ∈ parts, IsPart part)
    (hend : parts ≠ [] → ∃ loc n left,
      fs.goOn parts (fs.find false b) = .ok (.taken loc n left)) :
    parts.foldl (fun base part => base.bind (fs.enter? · part)) (some b) =
      some (parts.foldl Path.join b) := by
  induction parts generalizing b with
  | nil => rfl
  | cons part rest ih =>
    simp only [List.forall_mem_cons] at hparts
    have hjoin := fs.find_join hb hparts.1
    have hrest : rest ≠ [] → ∃ loc n left,
        fs.goOn rest (fs.find false (b.join part)) = .ok (.taken loc n left) := by
      intro hne
      rw [hjoin, goOn_goOn hne]
      exact hend (by simp)
    have hexists : fs.exists (b.join part) = true := by
      rw [exists_iff]
      by_cases hne : rest = []
      · subst hne
        exact hjoin ▸ hend (by simp)
      · obtain ⟨loc, n, left, h⟩ := hrest hne
        exact taken_of_goOn h
    have henter : fs.enter? b part = some (b.join part) := by simp [enter?, hhere, hexists]
    have hnext : (b.join part).components ≠ [.here] := by
      rw [Path.components_join hb hparts.1]
      cases hc : Path.component? part with
      | none => simpa using hhere
      | some c =>
        have := (Path.component?_ordinary hc).2
        simp only [Option.toList_some, Ne, List.append_eq_singleton_iff]
        simp [this]
    rw [List.foldl_cons, Option.bind_some, henter,
      ih (Path.text_join_ne_empty hb hparts.1) hnext hparts.2 hrest, List.foldl_cons]

/-- The path is a start for a search below a root: it leads to the same place by the same
components. -/
structure IsBase (fs : FileSystem) (root base : Path) : Prop where
  text : base.text ≠ ""
  components : base.components = root.components
  find : fs.find false base = fs.find false root

theorem searchBase?_of_isAbsolute {root : Path} {n : Node} {left : Nat}
    (habs : root.isAbsolute = true) (h : fs.find false root = .ok (.taken loc n left)) :
    ∃ base, fs.searchBase? root = some base ∧ fs.IsBase root base := by
  obtain ⟨hne, hnul⟩ := text_of_find h
  have hparts : ∀ part ∈ root.parts, IsPart part := fun part => Path.isPart_of_mem_parts hnul
  have hslash : fs.goOn root.parts (fs.find false ⟨"/"⟩) = fs.find false root := by
    have htop : fs.find false ⟨"/"⟩ = fs.walk false maxLinks [] ["", ""] := rfl
    obtain ⟨first, rest, hfirst⟩ := List.exists_cons_of_ne_nil root.parts_ne_nil
    rw [htop, ← walk_append root.parts_ne_nil, find_eq hne hnul, habs, hfirst]
    simp [walk_skip]
  refine ⟨root.parts.foldl Path.join ⟨"/"⟩, ?_, Path.text_joins_ne_empty (by decide) hparts, ?_, ?_⟩
  · rw [searchBase?_eq, habs, if_pos rfl]
    exact foldl_enter? (by decide) (by decide) hparts fun _ => ⟨loc, n, left, by rw [hslash, h]⟩
  · rw [Path.components_joins (by decide) hparts, Path.components_eq root, Path.lead, habs]
    rfl
  · rw [find_joins (by decide) hparts root.parts_ne_nil, hslash]

/-- Parts in a row lead from the working directory. -/
theorem find_joins_mk_by {first : String} (hpart : IsPart first) (hne : first ≠ "")
    (hnames : ∀ part ∈ names, IsPart part) :
    fs.find keepLast (names.foldl Path.join ⟨first⟩) =
      fs.walk keepLast maxLinks fs.workdir (first :: names) := by
  have hfirst : ∀ keepLast, fs.find keepLast ⟨first⟩ =
      fs.walk keepLast maxLinks fs.workdir [first] := by
    intro keepLast
    rw [find_eq hne hpart.no_nul, Path.isAbsolute_of_isPart hpart, Path.parts_of_isPart hpart]
    rfl
  by_cases hnil : names = []
  · subst hnil
    exact hfirst keepLast
  · rw [find_joins_by hne hnames hnil, hfirst, ← walk_append_by hnil, List.singleton_append]

theorem find_joins_mk {first : String} (hpart : IsPart first) (hne : first ≠ "")
    (hnames : ∀ part ∈ names, IsPart part) :
    fs.find false (names.foldl Path.join ⟨first⟩) =
      fs.walk false maxLinks fs.workdir (first :: names) := find_joins_mk_by hpart hne hnames

theorem searchBase?_of_relative {root : Path} {n : Node} {left : Nat}
    (habs : root.isAbsolute = false) (hhere : root.parts.head? ≠ some ".")
    (h : fs.find false root = .ok (.taken loc n left)) :
    ∃ base, fs.searchBase? root = some base ∧ fs.IsBase root base := by
  obtain ⟨hne, hnul⟩ := text_of_find h
  have hparts : ∀ part ∈ root.parts, IsPart part := fun part => Path.isPart_of_mem_parts hnul
  obtain ⟨first, rest, hfirst⟩ := List.exists_cons_of_ne_nil root.parts_ne_nil
  rw [hfirst, List.forall_mem_cons] at hparts
  obtain ⟨hpart, hrest⟩ := hparts
  have hdot : first ≠ "." := by simpa [hfirst] using hhere
  have hempty : first ≠ "" := by
    rintro rfl
    rcases Path.head?_parts (p := root) (by rw [hfirst]; rfl) with htext | htext
    · exact hne htext
    · rw [habs] at htext
      cases htext
  have hroot : fs.find false root = fs.walk false maxLinks fs.workdir (first :: rest) := by
    rw [find_eq hne hnul, habs, hfirst]
    rfl
  have hgo : rest ≠ [] → fs.goOn rest (fs.find false ⟨first⟩) = fs.find false root := by
    intro hnil
    rw [hroot, ← find_joins_mk hpart hempty hrest, find_joins hempty hrest hnil]
  have hexists : fs.exists ⟨first⟩ = true := by
    rw [exists_iff]
    by_cases hnil : rest = []
    · subst hnil
      exact ⟨loc, n, left, by rw [← h, hroot, ← find_joins_mk hpart hempty hrest]; rfl⟩
    · exact taken_of_goOn ((hgo hnil).trans h)
  -- The dot that a search of a relative root starts from makes way for the first part.
  have henter : fs.enter? ⟨"."⟩ first = some ⟨first⟩ := by
    have hcomponents : (Path.mk ".").components = [.here] := by decide
    simp [enter?, hcomponents, hexists]
  have hstart := Path.components_mk hpart hdot
  have hnext : (Path.mk first).components ≠ [.here] := by
    rw [hstart]
    cases hc : Path.component? first with
    | none => simp [hc]
    | some c => simp [hc, (Path.component?_ordinary hc).2]
  refine ⟨rest.foldl Path.join ⟨first⟩, ?_, Path.text_joins_ne_empty hempty hrest, ?_,
    (find_joins_mk hpart hempty hrest).trans hroot.symm⟩
  · rw [searchBase?_eq, habs, hfirst, List.foldl_cons]
    simp only [Bool.false_eq_true, if_false, Option.bind_some, henter]
    exact foldl_enter? hempty hnext hrest fun hnil => ⟨loc, n, left, by rw [hgo hnil, h]⟩
  · rw [Path.components_joins hempty hrest, hstart, ← List.filterMap_append,
      List.singleton_append, ← hfirst, Path.components_eq, Path.lead, habs, hfirst]
    simp [hdot]

/-- A search below a root without a dot at its front starts from that root. -/
theorem searchBase?_of_find {root : Path} {n : Node} {left : Nat}
    (hhere : .here ∉ root.components) (h : fs.find false root = .ok (.taken loc n left)) :
    ∃ base, fs.searchBase? root = some base ∧ fs.IsBase root base := by
  cases habs : root.isAbsolute with
  | true => exact searchBase?_of_isAbsolute habs h
  | false =>
    refine searchBase?_of_relative habs (fun hdot => hhere ?_) h
    simp [Path.components_eq, Path.lead, habs, hdot]

end FileSystem

end ApexSyntax
