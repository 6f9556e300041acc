-- Paths as they are written. A path keeps its text; what it means is its list
-- of components, which leaves out empty parts and all dots but a leading one.
namespace ApexSyntax

/-! ## Parts of a text -/

/-- The parts between slashes, empty ones included. -/
def splitAtSlash : List Char → List (List Char)
  | [] => [[]]
  | c :: rest =>
    if c = '/' then [] :: splitAtSlash rest
    else
      match splitAtSlash rest with
      | [] => [[c]]
      | part :: parts => (c :: part) :: parts

theorem splitAtSlash_ne_nil (cs : List Char) : splitAtSlash cs ≠ [] := by
  cases cs with
  | nil => simp [splitAtSlash]
  | cons c rest =>
    simp only [splitAtSlash]
    split
    · simp
    · split <;> simp

theorem splitAtSlash_of_not_mem {cs : List Char} (h : '/' ∉ cs) : splitAtSlash cs = [cs] := by
  induction cs with
  | nil => rfl
  | cons c rest ih =>
    simp only [List.mem_cons, not_or] at h
    simp [splitAtSlash, Ne.symm h.1, ih h.2]

theorem splitAtSlash_append {cs : List Char} (rest : List Char) (h : '/' ∉ cs) :
    splitAtSlash (cs ++ '/' :: rest) = cs :: splitAtSlash rest := by
  induction cs with
  | nil => simp [splitAtSlash]
  | cons c cs ih =>
    simp only [List.mem_cons, not_or] at h
    simp [splitAtSlash, Ne.symm h.1, ih h.2]

/-- One step of the way that a path names. -/
inductive Component where
  | root
  /-- The directory itself. -/
  | here
  /-- The directory above. -/
  | up
  | name (s : String)
  deriving DecidableEq, Repr

namespace Component

def text : Component → String
  | root => "/"
  | here => "."
  | up => ".."
  | name s => s

/-- The root comes before the dots, and the dots before all names. -/
def before : Component → Component → Bool
  | name s, name t => s < t
  | name _, _ => false
  | a, b => rank a < rank b
where
  rank : Component → Nat
    | root => 0
    | here => 1
    | up => 2
    | name _ => 3

/-- Compares ways step by step; a way comes before the ways that go on from it. -/
def inOrder : List Component → List Component → Bool
  | [], _ => true
  | _ :: _, [] => false
  | a :: as, b :: bs => if a = b then inOrder as bs else a.before b

end Component

structure Path where
  text : String
  deriving DecidableEq, Repr

namespace Path

def isAbsolute (p : Path) : Bool := p.text.toList.head? = some '/'

/-- The parts between the slashes, empty ones included. -/
def parts (p : Path) : List String := (splitAtSlash p.text.toList).map String.ofList

/-! ## Components -/

/-- The component of a part that does not lead the path. -/
def component? (part : String) : Option Component :=
  if part = "" ∨ part = "." then none
  else if part = ".." then some .up
  else some (.name part)

def components (p : Path) : List Component :=
  let ordinary := p.parts.filterMap component?
  if p.isAbsolute then .root :: ordinary
  else if p.parts.head? = some "." then .here :: ordinary
  else ordinary

/-- The path with one more part. An absolute part stands for itself. -/
def join (p : Path) (part : String) : Path :=
  if part.toList.head? = some '/' then ⟨part⟩
  else if p.text = "" ∨ p.text.toList.getLast? = some '/' then ⟨p.text ++ part⟩
  else ⟨p.text ++ "/" ++ part⟩

def ofComponents (cs : List Component) : Path := cs.foldl (fun p c => p.join c.text) ⟨""⟩

/-- The path without its dots. -/
def clean (p : Path) : Path := ofComponents (p.components.filter (· ≠ .here))

/-- Some path below, or the path itself. -/
def startsWith (p base : Path) : Bool := base.components.isPrefixOf p.components

/-- Sorts paths by their components. -/
def sort (ps : List Path) : List Path :=
  ps.mergeSort fun p q => Component.inOrder p.components q.components

/-! ## Names -/

/-- The last component, if it is a name. -/
def fileName? (p : Path) : Option String :=
  match p.components.getLast? with
  | some (.name s) => some s
  | _ => none

/-- What stands behind the last dot of a name, unless that dot leads it. -/
def extensionOf? (name : String) : Option String :=
  let back := name.toList.reverse
  match back.dropWhile (· ≠ '.') with
  | [] | [_] => none
  | _ => some (String.ofList (back.takeWhile (· ≠ '.')).reverse)

def extension? (p : Path) : Option String := p.fileName?.bind extensionOf?

def isHidden (name : String) : Bool := name.toList.head? = some '.'

/-! ## The directory above -/

/-- Drops the parts at the end that are no components. -/
def trimParts (leads : Bool) : List String → List String
  | [] => []
  | part :: rest =>
    match trimParts false rest with
    | [] => if part = "" ∨ (part = "." ∧ !leads) then [] else [part]
    | rest => part :: rest

/-- The path without its last component, as it is written. -/
def parent? (p : Path) : Option Path :=
  match trimParts true p.parts with
  | [] => none
  | parts =>
    let above := String.intercalate "/" (trimParts true parts.dropLast)
    some ⟨if p.isAbsolute ∧ above = "" then "/" else above⟩

/-! ## From one path to another -/

/-- The way from a directory to a path, by components: up where they part, and
down from there. There is none from a directory above. With `started` the ways
have parted. -/
def way? (started : Bool) : List Component → List Component → Option (List Component)
  | [], [] => some []
  | a :: as, [] => some (a :: as)
  | [], _ :: bs => (way? true [] bs).map (.up :: ·)
  | a :: as, b :: bs =>
    if !started ∧ a = b then way? false as bs
    else if b = .here then (way? true as bs).map (a :: ·)
    else if b = .up then none
    else some (.up :: (bs.map fun _ => .up) ++ a :: as)

/-- The path as it is seen from a directory, or the path itself where there is no
way between them. -/
def seenFrom (p base : Path) : Path :=
  if p.isAbsolute = base.isAbsolute then
    ((way? false p.components base.components).map ofComponents).getD p
  else p

/-- Backslashes stand for slashes. -/
def slashed (text : String) : String :=
  String.ofList (text.toList.map fun c => if c = '\\' then '/' else c)

/-- The text of a path as it is seen from a directory: with slashes, and with a
dot for the directory itself. -/
def relative (p base : Path) : String :=
  let text := slashed (p.seenFrom base).text
  if text = "" then "." else text

end Path

end ApexSyntax
