-- Symbolic links below a root. A search goes through links to directories as it goes
-- through directories; which of the files behind them it lists is decided by the spelling
-- of the root alone.
import ApexSyntax.Check.Files
import ApexSyntax.Proofs.FileSystem.FilesBelow

namespace ApexSyntax

def Node.isLink : Node → Bool
  | link _ => true
  | _ => false

namespace FileSystem

variable {fs : FileSystem} {keepLast linked flag : Bool} {depth left : Nat} {loc : Location}
  {n m : Node} {es : List (String × Node)} {name : String} {names rest : List String}

/-! ## What stands at a path -/

/-- What stands at a path. A link stands for itself. -/
def itself? (fs : FileSystem) (p : Path) : Option Node :=
  match fs.find true p with
  | .ok (.taken _ n _) => some n
  | _ => none

/-- The names lead from a location to a node of a kind, through links but the last. -/
def LeadsTo (fs : FileSystem) (kind : Node → Bool) (left : Nat) (loc : Location)
    (names : List String) : Prop :=
  ∃ goal n left', fs.walk true left loc names = .ok (.taken goal n left') ∧ kind n = true

/-- Some of the names lead to a link. -/
def LinkOn (fs : FileSystem) (left : Nat) (loc : Location) (names : List String) : Prop :=
  ∃ front, front <+: names ∧ front ≠ [] ∧ fs.LeadsTo Node.isLink left loc front

/-! ## Walks along names, through links -/

/-- A name leads on to its entry, and a link to what it links to. -/
theorem walk_name (hat : fs.top.at? loc = some (.dir es)) (hname : IsEntryName name) :
    fs.walk keepLast left loc (name :: rest) =
      match es.lookup name with
      | none => if rest = [] then .ok (.free loc name) else .error .notFound
      | some (.link target) =>
        if keepLast ∧ rest = [] then .ok (.taken (loc ++ [name]) (.link target) left)
        else
          match left with
          | 0 => .error .tooManyLinks
          | left + 1 => fs.walk keepLast left (if (Path.mk target).isAbsolute then [] else loc)
              ((Path.mk target).parts ++ rest)
      | some _ => fs.walk keepLast left (loc ++ [name]) rest := by
  have hskip : ¬(name = "" ∨ name = ".") := by simp [hname.ne_empty, hname.ne_here]
  cases hentry : es.lookup name with
  | none =>
    cases left <;> simp only [walk, walkBy, hat, hentry, if_neg hskip, if_neg hname.ne_up,
      if_neg (Nat.not_lt.2 hname.short)]
  | some m =>
    cases left <;> cases m <;> simp only [walk, walkBy, hat, hentry, if_neg hskip,
      if_neg hname.ne_up, if_neg (Nat.not_lt.2 hname.short)]

theorem walk_nil (hat : fs.top.at? loc = some n) :
    fs.walk keepLast left loc [] = .ok (.taken loc n left) := by
  obtain ⟨follow, hfollow⟩ := fs.walk_eq_walkBy keepLast left
  rw [hfollow]
  simp [walkBy, hat]

/-- What stands at a name is told without following it. -/
theorem walk_child (hn : n.Proper) (hat : fs.top.at? loc = some n)
    (hm : n.child? name = some m) :
    fs.walk true left loc [name] = .ok (.taken (loc ++ [name]) m left) := by
  obtain ⟨hdir, hmem⟩ := Node.mem_of_child? hm
  have hnext : fs.top.at? (loc ++ [name]) = some m := by
    rw [Node.at?_concat, hat]
    exact hm
  have hlookup : n.entries.lookup name = some m := hm
  rw [walk_name (hdir ▸ hat) (hn.isEntryName hmem), hlookup]
  cases m with
  | file bytes => exact walk_nil hnext
  | dir entries => exact walk_nil hnext
  | link target => simp

/-- A name that does not stand in the directory leads nowhere. -/
theorem walk_of_child?_eq_none (hat : fs.top.at? loc = some (.dir es)) (hname : IsEntryName name)
    (hm : (Node.dir es).child? name = none) (goal : Location) (m : Node) (left' : Nat) :
    fs.walk keepLast left loc (name :: rest) ≠ .ok (.taken goal m left') := by
  have hlookup : es.lookup name = none := hm
  rw [walk_name hat hname, hlookup]
  by_cases hrest : rest = [] <;> simp [hrest]

theorem left_le_of_walkBy {follow : Location → List String → Except ReadError Reached}
    {goal : Location} {left' : Nat}
    (hfollow : ∀ loc names, follow loc names = .ok (.taken goal n left') → left' ≤ left)
    (h : fs.walkBy keepLast left follow loc names = .ok (.taken goal n left')) : left' ≤ left := by
  induction names generalizing loc with
  | nil =>
    cases hat : fs.top.at? loc with
    | none => simp [walkBy, hat] at h
    | some m =>
      simp only [walkBy, hat, Except.ok.injEq, Reached.taken.injEq] at h
      omega
  | cons part rest ih =>
    simp only [walkBy] at h
    split at h
    · split at h
      · exact ih h
      · split at h
        · exact ih h
        · split at h
          · cases h
          · split at h
            · split at h <;> cases h
            · split at h
              · cases h
                exact Nat.le_refl _
              · exact hfollow _ _ h
            · exact ih h
    · cases h
    · cases h

/-- A walk never gains links that it may follow. -/
theorem left_le_of_walk {goal : Location} {left' : Nat}
    (h : fs.walk keepLast left loc names = .ok (.taken goal n left')) : left' ≤ left := by
  induction left generalizing loc names with
  | zero => exact left_le_of_walkBy (fun _ _ hend => by cases hend) h
  | succ k ih => exact left_le_of_walkBy (fun _ _ hend => Nat.le_succ_of_le (ih hend)) h

/-- A link that is followed is counted. -/
theorem left_lt_of_link {target : String} {goal : Location} {left' : Nat} (hn : n.Proper)
    (hat : fs.top.at? loc = some n) (hm : n.child? name = some (.link target))
    (h : fs.walk false left loc [name] = .ok (.taken goal m left')) : left' < left := by
  obtain ⟨hdir, hmem⟩ := Node.mem_of_child? hm
  have hlookup : n.entries.lookup name = some (.link target) := hm
  rw [walk_name (hdir ▸ hat) (hn.isEntryName hmem), hlookup] at h
  cases left with
  | zero => simp at h
  | succ left =>
    simp only [Bool.false_eq_true, false_and, if_false] at h
    exact Nat.lt_succ_of_le (left_le_of_walk h)

theorem walkBy_of_keepLast {follow follow' : Location → List String → Except ReadError Reached}
    {goal : Location} {left' : Nat} (hlink : n.isLink = false)
    (hfollow : ∀ loc names, follow loc names = .ok (.taken goal n left') →
      follow' loc names = .ok (.taken goal n left'))
    (h : fs.walkBy true left follow loc names = .ok (.taken goal n left')) :
    fs.walkBy false left follow' loc names = .ok (.taken goal n left') := by
  induction names generalizing loc with
  | nil => exact h
  | cons part rest ih =>
    simp only [walkBy] at h ⊢
    split at h
    · split at h
      · next hskip => rw [if_pos hskip]; exact ih h
      · next hskip =>
        rw [if_neg hskip]
        split at h
        · next hup => rw [if_pos hup]; exact ih h
        · next hup =>
          rw [if_neg hup]
          split at h
          · cases h
          · next hshort =>
            rw [if_neg hshort]
            split at h
            · split at h <;> cases h
            · split at h
              · cases h
                cases hlink
              · exact hfollow _ _ h
            · exact ih h
    · cases h
    · cases h

/-- What is no link is come to whether or not a link at the end is followed. -/
theorem walk_of_keepLast {goal : Location} {left' : Nat} (hlink : n.isLink = false)
    (h : fs.walk true left loc names = .ok (.taken goal n left')) :
    fs.walk false left loc names = .ok (.taken goal n left') := by
  induction left generalizing loc names with
  | zero => exact walkBy_of_keepLast hlink (fun _ _ hend => by cases hend) h
  | succ k ih => exact walkBy_of_keepLast hlink (fun _ _ hend => ih hend) h

/-- What stands at a path is what the path names, unless it is a link. -/
theorem node_of_itself? {p : Path} (hlink : n.isLink = false) (h : fs.itself? p = some n) :
    fs.node p = .ok n := by
  unfold itself? find at h
  unfold node find
  split at h
  · next goal m left hwalk =>
    cases h
    split at hwalk
    · cases hwalk
    · next hnul =>
      split at hwalk
      · cases hwalk
      · next htext => rw [if_neg hnul, if_neg htext, walk_of_keepLast hlink hwalk]
  · cases h

/-! ## Files behind links -/

section Entries

variable {kind : Node → Bool}

theorem leadsTo_one (hn : n.Proper) (hat : fs.top.at? loc = some n) (hm : n.child? name = some m) :
    fs.LeadsTo kind left loc [name] ↔ kind m = true := by
  simp [LeadsTo, walk_child hn hat hm]

theorem leadsTo_cons (hrest : rest ≠ []) : fs.LeadsTo kind left loc (name :: rest) ↔
    ∃ goal d left', fs.walk false left loc [name] = .ok (.taken goal d left') ∧
      fs.LeadsTo kind left' goal rest := by
  rw [LeadsTo, walk_cons hrest]
  rcases fs.walk false left loc [name] with e | ⟨goal, d, left'⟩ | ⟨loc', name'⟩
  · simp
  · simp [LeadsTo]
  · simp

/-- Names that lead on from somewhere lead on from a directory. -/
theorem LeadsTo.isDir (h : fs.LeadsTo kind left loc names) (hat : fs.top.at? loc = some n)
    (hne : names ≠ []) : n.isDir = true := by
  obtain ⟨goal, m, left', hwalk, -⟩ := h
  obtain ⟨part, rest, rfl⟩ := List.exists_cons_of_ne_nil hne
  obtain ⟨follow, hfollow⟩ := fs.walk_eq_walkBy true left
  rw [hfollow] at hwalk
  cases n with
  | dir es => rfl
  | file bytes => simp [walkBy, hat] at hwalk
  | link target => simp [walkBy, hat] at hwalk

theorem linkOn_cons (hn : n.Proper) (hat : fs.top.at? loc = some n)
    (hm : n.child? name = some m) : fs.LinkOn left loc (name :: rest) ↔
      m.isLink = true ∨ ∃ goal d left', fs.walk false left loc [name] = .ok (.taken goal d left') ∧
        fs.LinkOn left' goal rest := by
  constructor
  · rintro ⟨front, hfront, hne, hlink⟩
    obtain ⟨first, front, rfl⟩ := List.exists_cons_of_ne_nil hne
    obtain ⟨rfl, hback⟩ := List.cons_prefix_cons.1 hfront
    by_cases hmore : front = []
    · subst hmore
      exact Or.inl ((leadsTo_one hn hat hm).1 hlink)
    · obtain ⟨goal, d, left', hwalk, hlink⟩ := (leadsTo_cons hmore).1 hlink
      exact Or.inr ⟨goal, d, left', hwalk, front, hback, hmore, hlink⟩
  · rintro (hlink | ⟨goal, d, left', hwalk, front, hfront, hmore, hlink⟩)
    · exact ⟨[name], List.cons_prefix_cons.2 ⟨rfl, List.nil_prefix⟩, by simp,
        (leadsTo_one hn hat hm).2 hlink⟩
    · exact ⟨name :: front, List.cons_prefix_cons.2 ⟨rfl, hfront⟩, by simp,
        (leadsTo_cons hmore).2 ⟨goal, d, left', hwalk, hlink⟩⟩

/-- Behind each name less is left to go through: fewer links, or a lower directory. -/
theorem bound_lt {goal : Location} {d : Node} {left' : Nat} (hn : n.Proper)
    (hat : fs.top.at? loc = some n) (hm : n.child? name = some m)
    (h : fs.walk false left loc [name] = .ok (.taken goal d left')) :
    left' * (fs.top.height + 1) + d.height < left * (fs.top.height + 1) + n.height := by
  cases hlink : m.isLink with
  | true =>
    cases m with
    | link target =>
      have hlow : d.height ≤ fs.top.height := Node.height_le_of_at? (at?_of_walk h)
      have hless : left' + 1 ≤ left := left_lt_of_link hn hat hm h
      calc left' * (fs.top.height + 1) + d.height
          < (left' + 1) * (fs.top.height + 1) := by rw [Nat.succ_mul]; omega
        _ ≤ left * (fs.top.height + 1) := Nat.mul_le_mul_right _ hless
        _ ≤ left * (fs.top.height + 1) + n.height := Nat.le_add_right _ _
    | file bytes => cases hlink
    | dir es => cases hlink
  | false =>
    have hone : n.at? [name] = some m := by simp [Node.at?, hm]
    rw [walk_names hat hn hone (by rintro target rfl; cases hlink)] at h
    cases h
    have hlow := Node.height_lt_of_entry (Node.mem_of_child? hm).2
    omega

theorem filesAt_of_not_isFile (hn : n.Proper) (hat : fs.top.at? loc = some n)
    (hm : n.child? name = some m) (hfile : m.isFile = false) :
    fs.filesAt depth linked left loc (name, m) =
      match fs.walk false left loc [name] with
      | .ok (.taken goal (.dir _) left') =>
        (fs.filesWithin depth (linked || m.isLink) left' goal).map (·.under name)
      | _ => [] := by
  cases m with
  | file bytes => cases hfile
  | link target =>
    rcases hwalk : fs.walk false left loc [name] with e | ⟨goal, d, left'⟩ | ⟨loc', name'⟩
    · simp only [filesAt, hwalk]
    · cases d <;> simp only [filesAt, hwalk, Node.isLink, Bool.or_true]
    · simp only [filesAt, hwalk]
  | dir es =>
    have hone : n.at? [name] = some (.dir es) := by simp [Node.at?, hm]
    rw [walk_names hat hn hone (by simp)]
    simp [filesAt, Node.isLink]

end Entries

/-- A name that a search goes through is the name of an entry. -/
theorem mem_filesWithin_cons (hn : n.Proper) (hat : fs.top.at? loc = some n) :
    (⟨name :: rest, flag⟩ : FoundFile) ∈ fs.filesWithin (depth + 1) linked left loc ↔
      ∃ m, n.child? name = some m ∧
        (⟨name :: rest, flag⟩ : FoundFile) ∈ fs.filesAt depth linked left loc (name, m) := by
  rw [filesWithin_succ hat, List.mem_flatMap]
  constructor
  · rintro ⟨⟨name', m⟩, hentry, hf⟩
    obtain rfl : name = name' := Option.some.inj (names_of_mem_filesAt hf)
    exact ⟨m, hn.child?_eq_some_iff.2 hentry, hf⟩
  · rintro ⟨m, hm, hf⟩
    exact ⟨(name, m), (Node.mem_of_child? hm).2, hf⟩

theorem mem_map_under {files : List FoundFile} :
    (⟨name :: rest, flag⟩ : FoundFile) ∈ files.map (·.under name) ↔ ⟨rest, flag⟩ ∈ files := by
  rw [List.mem_map]
  constructor
  · rintro ⟨⟨names, linked⟩, hf, heq⟩
    cases heq
    exact hf
  · exact fun hf => ⟨_, hf, rfl⟩

/-- What a search has to say of a file: names lead to it, and whether through a link. -/
structure Finds (fs : FileSystem) (linked : Bool) (left : Nat) (loc : Location) (f : FoundFile) :
    Prop where
  ne_nil : f.names ≠ []
  entries : ∀ name ∈ f.names, IsEntryName name
  file : fs.LeadsTo Node.isFile left loc f.names
  linked_iff : f.linked = true ↔ linked = true ∨ fs.LinkOn left loc f.names

/-- Beyond a file there is nothing to find. -/
theorem mem_filesAt_of_isFile (hn : n.Proper) (hat : fs.top.at? loc = some n)
    (hm : n.child? name = some m) (hfile : m.isFile = true) :
    (⟨name :: rest, flag⟩ : FoundFile) ∈ fs.filesAt depth linked left loc (name, m) ↔
      fs.Finds linked left loc ⟨name :: rest, flag⟩ := by
  obtain ⟨bytes, rfl⟩ : ∃ bytes, m = .file bytes := by
    cases m with
    | file bytes => exact ⟨bytes, rfl⟩
    | link target => cases hfile
    | dir es => cases hfile
  have hname := hn.isEntryName (Node.mem_of_child? hm).2
  have hone : n.at? [name] = some (.file bytes) := by simp [Node.at?, hm]
  have hend : fs.LeadsTo Node.isFile left loc (name :: rest) ↔ rest = [] := by
    constructor
    · intro hleads
      by_contra hrest
      obtain ⟨goal, d, left', hwalk, hleads⟩ := (leadsTo_cons hrest).1 hleads
      rw [walk_names hat hn hone (by simp)] at hwalk
      cases hwalk
      have hnext : fs.top.at? (loc ++ [name]) = some (.file bytes) := by
        rw [Node.at?_append, hat]
        exact hone
      cases hleads.isDir hnext hrest
    · rintro rfl
      exact (leadsTo_one hn hat hm).2 hfile
  have hlink : ¬fs.LinkOn left loc [name] := by
    rw [linkOn_cons hn hat hm]
    rintro (hlink | ⟨goal, d, left', -, front, hfront, hne, -⟩)
    · cases hlink
    · exact hne (List.prefix_nil.1 hfront)
  rw [filesAt, List.mem_singleton]
  constructor
  · rintro heq
    cases heq
    exact ⟨by simp, by simpa using hname, hend.2 rfl, by simp [hlink]⟩
  · rintro ⟨-, -, hleads, hflag⟩
    cases hend.1 hleads
    have hsame : flag = linked := Bool.eq_iff_iff.2 (hflag.trans (or_iff_left hlink))
    rw [hsame]

/-- Behind a directory or a link a search finds what one finds that starts there. -/
theorem mem_filesAt_of_not_isFile (hn : n.Proper) (hat : fs.top.at? loc = some n)
    (hm : n.child? name = some m) (hfile : m.isFile = false)
    (hnext : ∀ linked goal es left',
      fs.walk false left loc [name] = .ok (.taken goal (.dir es) left') →
      ((⟨rest, flag⟩ : FoundFile) ∈ fs.filesWithin depth linked left' goal ↔
        fs.Finds linked left' goal ⟨rest, flag⟩)) :
    (⟨name :: rest, flag⟩ : FoundFile) ∈ fs.filesAt depth linked left loc (name, m) ↔
      fs.Finds linked left loc ⟨name :: rest, flag⟩ := by
  have hname := hn.isEntryName (Node.mem_of_child? hm).2
  -- Names that lead to a file lead on from a directory.
  have hmore : fs.LeadsTo Node.isFile left loc (name :: rest) ↔ rest ≠ [] ∧
      ∃ goal es left', fs.walk false left loc [name] = .ok (.taken goal (.dir es) left') ∧
        fs.LeadsTo Node.isFile left' goal rest := by
    constructor
    · intro hleads
      have hrest : rest ≠ [] := by
        rintro rfl
        rw [leadsTo_one hn hat hm, hfile] at hleads
        cases hleads
      obtain ⟨goal, d, left', hwalk, hleads⟩ := (leadsTo_cons hrest).1 hleads
      cases d with
      | dir es => exact ⟨hrest, goal, es, left', hwalk, hleads⟩
      | file bytes => cases hleads.isDir (at?_of_walk hwalk) hrest
      | link target => cases hleads.isDir (at?_of_walk hwalk) hrest
    · rintro ⟨hrest, goal, es, left', hwalk, hleads⟩
      exact (leadsTo_cons hrest).2 ⟨goal, .dir es, left', hwalk, hleads⟩
  have hlink := @linkOn_cons fs left loc n m name rest hn hat hm
  rw [filesAt_of_not_isFile hn hat hm hfile]
  constructor
  · intro hf
    split at hf
    · next goal es left' hwalk =>
      obtain ⟨hne, hnames, hleads, hflag⟩ := (hnext _ goal es left' hwalk).1 (mem_map_under.1 hf)
      refine ⟨by simp, List.forall_mem_cons.2 ⟨hname, hnames⟩,
        hmore.2 ⟨hne, goal, es, left', hwalk, hleads⟩, ?_⟩
      simpa [hlink, hwalk, or_assoc, and_assoc] using hflag
    · cases hf
  · rintro ⟨-, hnames, hleads, hflag⟩
    obtain ⟨hne, goal, es, left', hwalk, hleads⟩ := hmore.1 hleads
    rw [hwalk]
    refine mem_map_under.2 ((hnext _ goal es left' hwalk).2 ⟨hne, ?_, hleads, ?_⟩)
    · exact (List.forall_mem_cons.1 hnames).2
    · simpa [hlink, hwalk, or_assoc, and_assoc] using hflag

/-- A search that goes deep enough finds the files that names lead to, through directories
and links to directories, and remembers where it came through a link. -/
theorem mem_filesWithin_iff (hfs : fs.top.Proper) (hat : fs.top.at? loc = some n)
    (hdir : n.isDir = true) (hdepth : left * (fs.top.height + 1) + n.height ≤ depth) :
    (⟨names, flag⟩ : FoundFile) ∈ fs.filesWithin depth linked left loc ↔
      fs.Finds linked left loc ⟨names, flag⟩ := by
  obtain ⟨es, rfl⟩ : ∃ es, n = .dir es := by
    cases n with
    | dir es => exact ⟨es, rfl⟩
    | file bytes => cases hdir
    | link target => cases hdir
  obtain ⟨d, rfl⟩ : ∃ d, depth = d + 1 :=
    Nat.exists_eq_add_one.2 (by rw [Node.height] at hdepth; omega)
  induction names generalizing d linked left loc es with
  | nil =>
    refine iff_of_false (fun hf => ?_) fun h => h.ne_nil rfl
    obtain ⟨n', name, m, -, -, hmem⟩ := exists_entry_of_mem_filesWithin hf
    cases names_of_mem_filesAt hmem
  | cons name rest ih =>
    have hn := hfs.at? hat
    rw [mem_filesWithin_cons hn hat]
    cases hm : (Node.dir es).child? name with
    | none =>
      refine iff_of_false (by simp) fun ⟨_, hnames, ⟨goal, m, left', hwalk, _⟩, _⟩ => ?_
      exact walk_of_child?_eq_none hat (hnames name List.mem_cons_self) hm goal m left' hwalk
    | some m =>
      simp only [Option.some.injEq, exists_eq_left']
      cases hfile : m.isFile with
      | true => exact mem_filesAt_of_isFile hn hat hm hfile
      | false =>
        refine mem_filesAt_of_not_isFile hn hat hm hfile fun linked goal es' left' hwalk => ?_
        have hbelow := bound_lt hn hat hm hwalk
        obtain ⟨d', rfl⟩ : ∃ d', d = d' + 1 :=
          Nat.exists_eq_add_one.2 (by simp only [Node.height] at hbelow hdepth; omega)
        exact ih es' (at?_of_walk hwalk) rfl d' (by omega)

/-! ## Where a search starts -/

variable {root base p : Path}

/-- A search goes from a path over some parts as from the working directory. -/
structure StartsAt (fs : FileSystem) (done : List String) (here : Path) : Prop where
  text : here.text ≠ ""
  shape : here = ⟨"."⟩ ∨ .here ∉ here.components
  leads : ∀ rest, rest ≠ [] →
    fs.goOn rest (fs.find false here) = fs.walk false maxLinks fs.workdir (done ++ rest)

theorem startsAt_here (fs : FileSystem) : fs.StartsAt [] ⟨"."⟩ where
  text := by decide
  shape := Or.inl rfl
  leads rest hrest := by
    obtain ⟨part, more, rfl⟩ := List.exists_cons_of_ne_nil hrest
    have hhere : fs.find false ⟨"."⟩ = fs.walk false maxLinks fs.workdir ["."] := rfl
    rw [hhere, ← walk_append hrest]
    exact walk_skip (Or.inr rfl)

theorem enter?_eq_some_iff {here next : Path} {part : String} :
    fs.enter? here part = some next ↔
      (if here.components = [.here] then ⟨part⟩ else here.join part) = next ∧
        fs.exists next = true := by
  simp only [enter?, Option.ite_none_right_eq_some, Option.some.injEq]
  constructor
  · rintro ⟨h, rfl⟩
    exact ⟨rfl, h⟩
  · rintro ⟨rfl, h⟩
    exact ⟨h, rfl⟩

/-- With each part that a search enters it goes on as from the working directory. -/
theorem StartsAt.enter {done : List String} {here next : Path} {part : String}
    (h : fs.StartsAt done here) (hpart : IsPart part) (henter : fs.enter? here part = some next) :
    fs.StartsAt (done ++ [part]) next ∧
      fs.find false next = fs.walk false maxLinks fs.workdir (done ++ [part]) := by
  obtain ⟨hnext, hexists⟩ := enter?_eq_some_iff.1 henter
  obtain ⟨loc, n, left, hfound⟩ := exists_iff.1 hexists
  have htext := (text_of_find hfound).1
  have hgo := h.leads [part] (by simp)
  suffices hend : (next = ⟨"."⟩ ∨ .here ∉ next.components) ∧
      fs.find false next = fs.walk false maxLinks fs.workdir (done ++ [part]) by
    refine ⟨⟨htext, hend.1, fun rest hrest => ?_⟩, hend.2⟩
    rw [hend.2, ← walk_append hrest]
  rcases h.shape with rfl | hhere
  · have hdot : (Path.mk ".").components = [.here] := by decide
    rw [if_pos hdot] at hnext
    subst hnext
    constructor
    · by_cases hpoint : part = "."
      · exact Or.inl (by rw [hpoint])
      · refine Or.inr ?_
        rw [Path.components_mk hpart hpoint, List.mem_filterMap]
        rintro ⟨_, -, hc⟩
        exact (Path.component?_ordinary hc).2 rfl
    · have hone : fs.find false (([] : List String).foldl Path.join ⟨part⟩) =
          fs.walk false maxLinks fs.workdir [part] :=
        find_joins_mk hpart htext (List.forall_mem_nil _)
      rw [← hgo, (startsAt_here fs).leads [part] (by simp)]
      exact hone
  · have hdot : here.components ≠ [.here] := fun heq => hhere (by simp [heq])
    rw [if_neg hdot] at hnext
    subst hnext
    rw [find_join h.text hpart, Path.components_join h.text hpart]
    refine ⟨Or.inr ?_, hgo⟩
    simp only [List.mem_append, hhere, Option.mem_toList, false_or]
    exact fun hc => (Path.component?_ordinary hc).2 rfl

theorem foldl_enter?_none (parts : List String) :
    parts.foldl (fun base part => base.bind (fs.enter? · part)) none = none := by
  induction parts with
  | nil => rfl
  | cons part rest ih => exact ih

theorem StartsAt.enters {done parts : List String} {here : Path} (h : fs.StartsAt done here)
    (hparts : ∀ part ∈ parts, IsPart part) (hne : parts ≠ [])
    (hbase : parts.foldl (fun base part => base.bind (fs.enter? · part)) (some here) = some base) :
    fs.StartsAt (done ++ parts) base ∧
      fs.find false base = fs.walk false maxLinks fs.workdir (done ++ parts) := by
  induction parts generalizing done here with
  | nil => exact absurd rfl hne
  | cons part rest ih =>
    simp only [List.forall_mem_cons] at hparts
    rw [List.foldl_cons, Option.bind_some] at hbase
    cases henter : fs.enter? here part with
    | none => simp [henter, foldl_enter?_none] at hbase
    | some next =>
      have hnext := h.enter hparts.1 henter
      rw [henter] at hbase
      by_cases hrest : rest = []
      · subst hrest
        exact Option.some.inj hbase ▸ hnext
      · simpa using ih hnext.1 hparts.2 hrest hbase

/-- A search below a relative root starts from where the root leads. -/
theorem startsAt_of_searchBase? (hroot : root.text ≠ "") (hnul : '\x00' ∉ root.text.toList)
    (habs : root.isAbsolute = false) (hbase : fs.searchBase? root = some base) :
    fs.StartsAt root.parts base ∧ fs.find false base = fs.find false root := by
  rw [searchBase?_eq, habs] at hbase
  obtain ⟨hstart, hfind⟩ := (startsAt_here fs).enters
    (fun part => Path.isPart_of_mem_parts hnul) root.parts_ne_nil hbase
  refine ⟨hstart, hfind.trans ?_⟩
  rw [find_eq hroot hnul, habs]
  rfl

/-- What a search below a root of any spelling starts from. -/
structure Begins (fs : FileSystem) (root base : Path) : Prop where
  text : base.text ≠ ""
  shape : base = ⟨"."⟩ ∨ .here ∉ base.components
  find : fs.find false base = fs.find false root

theorem begins_of_searchBase? {n : Node} (hfind : fs.find false root = .ok (.taken loc n left))
    (hbase : fs.searchBase? root = some base) : fs.Begins root base := by
  obtain ⟨hroot, hnul⟩ := text_of_find hfind
  cases habs : root.isAbsolute with
  | true =>
    obtain ⟨base', hbase', hsame⟩ := searchBase?_of_isAbsolute habs hfind
    obtain rfl := Option.some.inj (hbase'.symm.trans hbase)
    refine ⟨hsame.text, Or.inr fun hhere => ?_, hsame.find⟩
    rw [hsame.components, Path.here_mem_components_iff, habs] at hhere
    cases hhere.1
  | false =>
    obtain ⟨hstart, hsame⟩ := startsAt_of_searchBase? hroot hnul habs hbase
    exact ⟨hstart.text, hstart.shape, hsame⟩

namespace Begins

variable {n : Node}

/-- The path of a file leads from where the search starts by the names of the file. -/
theorem find_down (h : fs.Begins root base) (hfind : fs.find false base = .ok (.taken loc n left))
    (hnames : ∀ name ∈ names, IsEntryName name) (hne : names ≠ []) :
    fs.find keepLast (base.down names) = fs.walk keepLast left loc names := by
  have hparts : ∀ name ∈ names, IsPart name := fun name hname => (hnames name hname).toIsPart
  rcases h.shape with rfl | hhere
  · have hdot : (Path.mk ".").components = [.here] := by decide
    have hwalk : fs.walk false maxLinks fs.workdir ["."] = .ok (.taken loc n left) := hfind
    obtain ⟨first, rest, rfl⟩ := List.exists_cons_of_ne_nil hne
    rw [List.forall_mem_cons] at hnames hparts
    rw [Path.down_cons_of_here hdot hparts.1,
      find_joins_mk_by hparts.1 hnames.1.ne_empty hparts.2, ← walk_skip (Or.inr rfl),
      ← List.singleton_append, walk_append_by (by simp), hwalk, goOnBy_taken]
  · have hdot : base.components ≠ [.here] := fun heq => hhere (by simp [heq])
    rw [Path.down, if_neg hdot, find_joins_by h.text hparts hne, hfind, goOnBy_taken]

theorem leadsTo_iff {kind : Node → Bool} (h : fs.Begins root base)
    (hfind : fs.find false base = .ok (.taken loc n left))
    (hnames : ∀ name ∈ names, IsEntryName name) (hne : names ≠ []) :
    fs.LeadsTo kind left loc names ↔ (fs.itself? (base.down names)).any kind = true := by
  rw [itself?, h.find_down hfind hnames hne, LeadsTo]
  rcases fs.walk true left loc names with e | ⟨goal, m, left'⟩ | ⟨loc', name'⟩ <;> simp

end Begins

/-- A link lies on the way from a path down to some names, or at its end. -/
def ThroughLink (fs : FileSystem) (base : Path) (names : Location) : Prop :=
  ∃ front, front <+: names ∧ front ≠ [] ∧
    (fs.itself? (base.down front)).any Node.isLink = true

namespace Begins

theorem linkOn_iff {n : Node} (h : fs.Begins root base)
    (hfind : fs.find false base = .ok (.taken loc n left))
    (hnames : ∀ name ∈ names, IsEntryName name) :
    fs.LinkOn left loc names ↔ fs.ThroughLink base names := by
  have hfront : ∀ front, front <+: names → front ≠ [] →
      (fs.LeadsTo Node.isLink left loc front ↔
        (fs.itself? (base.down front)).any Node.isLink = true) := fun front hfront hne =>
    h.leadsTo_iff hfind (fun name hname => hnames name (hfront.subset hname)) hne
  constructor
  · rintro ⟨front, hprefix, hne, hlink⟩
    exact ⟨front, hprefix, hne, (hfront front hprefix hne).1 hlink⟩
  · rintro ⟨front, hprefix, hne, hlink⟩
    exact ⟨front, hprefix, hne, (hfront front hprefix hne).2 hlink⟩

end Begins

/-! ## What a search lists -/

theorem startsWith_eq_false (hbegins : fs.Begins root base) (hhere : .here ∈ root.components)
    (hnames : ∀ name ∈ names, IsEntryName name) : (base.down names).startsWith root = false := by
  obtain ⟨habs, hdot⟩ := Path.here_mem_components_iff.1 hhere
  have hroot : root.components = .here :: root.parts.filterMap Path.component? := by
    simp [Path.components_eq, Path.lead, habs, hdot]
  have hdown : .here ∉ (base.down names).components := by
    rcases hbegins.shape with rfl | hbase
    · rw [Path.components_down_of_here (by decide) hnames]
      simp
    · rw [Path.components_down hbegins.text (fun heq => hbase (by simp [heq])) hnames]
      simp [hbase]
  rw [Path.startsWith, hroot, Bool.eq_false_iff]
  intro hprefix
  exact hdown ((List.isPrefixOf_iff_prefix.1 hprefix).subset List.mem_cons_self)

/-- A search goes through as many directories as lie between all the links that can be
followed. -/
theorem le_depthBound {n : Node} (hfind : fs.find false p = .ok (.taken loc n left)) :
    left * (fs.top.height + 1) + n.height ≤ fs.depthBound := by
  obtain ⟨htext, hnul⟩ := text_of_find hfind
  rw [find_eq htext hnul] at hfind
  have hlow : n.height ≤ fs.top.height := Node.height_le_of_at? (at?_of_walk hfind)
  calc left * (fs.top.height + 1) + n.height
      ≤ maxLinks * (fs.top.height + 1) + fs.top.height :=
        Nat.add_le_add (Nat.mul_le_mul_right _ (left_le_of_walk hfind)) hlow
    _ ≤ fs.depthBound := by rw [depthBound, Nat.succ_mul]; omega

/-- A regular file by its path: the path goes down to it by the names of entries, through
links or not. -/
structure FileBelow (fs : FileSystem) (base p : Path) (names : Location) : Prop where
  ne_nil : names ≠ []
  entries : ∀ name ∈ names, IsEntryName name
  path : p = base.down names
  file : (fs.itself? p).any Node.isFile = true

/-- A search lists the files of a root, through links too. Those behind links it leaves out
only where their paths begin as the root is spelled. -/
theorem mem_filesBelow_iff {es : List (String × Node)} (hfs : fs.top.Proper)
    (hbase : fs.searchBase? root = some base) (hbegins : fs.Begins root base)
    (hfind : fs.find false base = .ok (.taken loc (.dir es) left)) :
    p ∈ fs.filesBelow root ↔ ∃ names, fs.FileBelow base p names ∧
      ¬(fs.ThroughLink base names ∧ p.startsWith root = true) := by
  have hfound : ∀ names linked, ⟨names, linked⟩ ∈ fs.filesWithin fs.depthBound false left loc ↔
      fs.FileBelow base (base.down names) names ∧
        (linked = true ↔ fs.ThroughLink base names) := by
    intro names linked
    rw [mem_filesWithin_iff hfs (at?_of_find hfind) rfl (le_depthBound hfind)]
    constructor
    · rintro ⟨hne, hnames, hfile, hlinked⟩
      rw [Bool.false_eq_true, false_or, hbegins.linkOn_iff hfind hnames] at hlinked
      exact ⟨⟨hne, hnames, rfl, (hbegins.leadsTo_iff hfind hnames hne).1 hfile⟩, hlinked⟩
    · rintro ⟨h, hlinked⟩
      refine ⟨h.ne_nil, h.entries, (hbegins.leadsTo_iff hfind h.entries h.ne_nil).2 h.file, ?_⟩
      rw [Bool.false_eq_true, false_or, hbegins.linkOn_iff hfind h.entries]
      exact hlinked
  simp only [filesBelow, hbase, hfind, Path.sort, List.mem_mergeSort, List.mem_filterMap]
  constructor
  · rintro ⟨⟨names, linked⟩, hf, hp⟩
    obtain ⟨hfile, hlinked⟩ := (hfound names linked).1 hf
    simp only [Option.ite_none_left_eq_some, Option.some.injEq] at hp
    obtain ⟨hout, rfl⟩ := hp
    exact ⟨names, hfile, fun h => hout ⟨hlinked.2 h.1, h.2⟩⟩
  · rintro ⟨names, hfile, hout⟩
    obtain rfl := hfile.path
    classical
    refine ⟨⟨names, decide (fs.ThroughLink base names)⟩,
      (hfound _ _).2 ⟨hfile, decide_eq_true_iff⟩, ?_⟩
    simp only [Option.ite_none_left_eq_some, decide_eq_true_eq]
    exact ⟨hout, rfl⟩

theorem components_down_of_isBase (hbase : fs.IsBase root base) (hhere : .here ∉ root.components)
    (hnames : ∀ name ∈ names, IsEntryName name) :
    (base.down names).components = root.components ++ names.map .name := by
  rw [Path.components_down hbase.text (fun heq => hhere (by simp [← hbase.components, heq]))
    hnames, hbase.components]

theorem startsWith_of_isBase (hbase : fs.IsBase root base) (hhere : .here ∉ root.components)
    (hnames : ∀ name ∈ names, IsEntryName name) : (base.down names).startsWith root = true := by
  rw [Path.startsWith, components_down_of_isBase hbase hhere hnames]
  exact List.isPrefixOf_iff_prefix.2 (List.prefix_append ..)

/-- Below a root without a dot at its front no file is listed twice, under whatever names. -/
theorem nodup_realLocations {es : List (String × Node)} (hfs : fs.top.Proper)
    (hhere : .here ∉ root.components) (hbase : fs.searchBase? root = some base)
    (hsame : fs.IsBase root base) (hfind : fs.find false base = .ok (.taken loc (.dir es) left)) :
    ((fs.filesBelow root).map fs.realLocation?).Nodup := by
  have hat := at?_of_find hfind
  have hbegins := begins_of_searchBase? (hsame.find.symm.trans hfind) hbase
  obtain ⟨files, hlisting, hbelow⟩ := filesBelow_eq hfs hbase hfind
    (fun _ => components_down_of_isBase hsame hhere) fun f hf _ =>
      startsWith_of_isBase hsame hhere (isEntryName_of_mem_filesWithin hfs hf)
  have hplace : ∀ names ∈ files, fs.realLocation? (base.down names) = some (loc ++ names) := by
    intro names hmem
    obtain ⟨bytes, hfile⟩ := (hlisting.mem_iff names).1 hmem
    have hne : names ≠ [] := by
      rintro rfl
      cases hfile
    rw [realLocation?, hbegins.find_down hfind ((hfs.at? hat).isEntryName_of_at? hfile) hne,
      walk_names hat (hfs.at? hat) hfile (by simp)]
  rw [hbelow, List.map_map]
  refine List.pairwise_map.2 (hlisting.sorted.imp_of_mem fun hmem hmem' hlt heq => ?_)
  rw [Function.comp_apply, Function.comp_apply, hplace _ hmem, hplace _ hmem'] at heq
  exact ne_of_lt hlt (List.append_cancel_left (Option.some.inj heq))

/-- The files that are listed below a directory. Where no dot leads its path they are those
that no link leads to, and none is listed under two names. Behind a dot at the front of the
path they are all files that names lead to, through links too. -/
theorem links_below_root (hfs : fs.top.Proper) (hdir : fs.isDir root = true) :
    (.here ∉ root.components → ∃ base, fs.searchBase? root = some base ∧ fs.IsBase root base ∧
      (∀ p, p ∈ fs.filesBelow root ↔
        ∃ names, fs.FileBelow base p names ∧ ¬fs.ThroughLink base names) ∧
      ((fs.filesBelow root).map fs.realLocation?).Nodup) ∧
    (.here ∈ root.components → ∀ base, fs.searchBase? root = some base →
      fs.find false base = fs.find false root ∧
      ∀ p, p ∈ fs.filesBelow root ↔ ∃ names, fs.FileBelow base p names) := by
  obtain ⟨loc, es, left, hfind, -⟩ := find_of_isDir hdir
  constructor
  · intro hhere
    obtain ⟨base, hbase, hsame⟩ := searchBase?_of_find hhere hfind
    have hfindBase := hsame.find.trans hfind
    have hbegins := begins_of_searchBase? hfind hbase
    refine ⟨base, hbase, hsame, fun p => ?_, nodup_realLocations hfs hhere hbase hsame hfindBase⟩
    rw [mem_filesBelow_iff hfs hbase hbegins hfindBase]
    refine exists_congr fun names => and_congr_right fun hfile => not_congr ?_
    rw [hfile.path, startsWith_of_isBase hsame hhere hfile.entries, and_iff_left rfl]
  · intro hhere base hbase
    have hbegins := begins_of_searchBase? hfind hbase
    refine ⟨hbegins.find, fun p => ?_⟩
    rw [mem_filesBelow_iff hfs hbase hbegins (hbegins.find.trans hfind)]
    refine exists_congr fun names => and_iff_left_of_imp fun hfile h => ?_
    rw [hfile.path, startsWith_eq_false hbegins hhere hfile.entries] at h
    cases h.2

/-- A class that lacks its last brace, in a directory and behind a link to it. -/
def linkedClass : FileSystem where
  top := .dir [("d", .link "real"),
    ("real", .dir [("A.cls", .file "class A \x7b".toUTF8.toList)])]
  workdir := []

theorem proper_linkedClass : linkedClass.top.Proper := by
  refine .dir (by decide) (by decide) (List.forall_mem_cons.2 ⟨.link _, ?_⟩)
  refine List.forall_mem_singleton.2 (.dir (by decide) (by decide) ?_)
  exact List.forall_mem_singleton.2 (.file _)

/-- From the top by its name the class is listed once, and from a dot through the link too. -/
theorem links_below_root_linkedClass :
    linkedClass.top.Proper ∧ linkedClass.isDir ⟨"/"⟩ = true ∧ linkedClass.isDir ⟨"."⟩ = true ∧
    ((linkedClass.filesBelow ⟨"/"⟩).map linkedClass.realLocation?).Nodup ∧
    ⟨"d/A.cls"⟩ ∈ linkedClass.filesBelow ⟨"."⟩ := by
  have htop : linkedClass.isDir ⟨"/"⟩ = true := by decide +kernel
  have hdot : linkedClass.isDir ⟨"."⟩ = true := by decide +kernel
  have hbase : linkedClass.searchBase? ⟨"."⟩ = some ⟨"."⟩ := by decide +kernel
  have hbelow : linkedClass.FileBelow ⟨"."⟩ ⟨"d/A.cls"⟩ ["d", "A.cls"] :=
    ⟨by decide, by decide, by decide +kernel, by decide +kernel⟩
  obtain ⟨base, -, -, -, honce⟩ :=
    (links_below_root proper_linkedClass htop).1 (by decide +kernel)
  have hlisted :=
    (((links_below_root proper_linkedClass hdot).2 (by decide +kernel) _ hbase).2 _).2 ⟨_, hbelow⟩
  exact ⟨proper_linkedClass, htop, hdot, honce, hlisted⟩

theorem filesBelow_linkedClass :
    linkedClass.filesBelow ⟨"."⟩ = [⟨"d/A.cls"⟩, ⟨"real/A.cls"⟩] := by
  have hsorted : linkedClass.filesBelow ⟨"."⟩ = Path.sort [⟨"d/A.cls"⟩, ⟨"real/A.cls"⟩] := by
    rfl
  rw [hsorted]
  exact List.mergeSort_of_pairwise (by decide +kernel)

/-- From a dot the class behind the link is listed and checked, under two names. -/
theorem dot_root_follows_links :
    linkedClass.isDir ⟨"."⟩ = true ∧
    (linkedClass.itself? ⟨"d"⟩).any Node.isLink = true ∧
    linkedClass.filesBelow ⟨"."⟩ = [⟨"d/A.cls"⟩, ⟨"real/A.cls"⟩] ∧
    linkedClass.realLocation? ⟨"d/A.cls"⟩ = linkedClass.realLocation? ⟨"real/A.cls"⟩ ∧
    (linkedClass.checkPath ⟨"."⟩ []).1.errors =
      [⟨10, 1, "missing '\x7d' at '<EOF>'", "d/A.cls"⟩,
        ⟨10, 1, "missing '\x7d' at '<EOF>'", "real/A.cls"⟩] := by
  have hexists : linkedClass.exists ⟨"."⟩ = true := by decide +kernel
  have hcheck : linkedClass.checkPath ⟨"."⟩ [] =
      linkedClass.checkKinds ⟨"."⟩ FileKind.default := rfl
  refine ⟨by decide +kernel, by decide +kernel, filesBelow_linkedClass, by decide +kernel, ?_⟩
  rw [hcheck, checkKinds, if_pos hexists, filesBelow_linkedClass]
  decide +kernel

end FileSystem

end ApexSyntax
