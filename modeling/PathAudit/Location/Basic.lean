import PathAudit.PathText

/-! Locations: paths with `.` and `..` folded away by their text alone, links unseen. A path is
read as a sequence of steps, and a location is where the steps lead: from the file system's root
or, for a relative path, from wherever the path is used. -/

namespace PathAudit

/-- One step of a path. Empty parts and `.` are no steps. -/
inductive Step
  | root
  | parent
  | name (name : String)
deriving DecidableEq, Repr

def Step.ofPart? (part : List Char) : Option Step :=
  if part = [] ∨ part = ['.'] then none
  else if part = ['.', '.'] then some .parent
  else some (.name (String.ofList part))

def Path.steps (path : String) : List Step :=
  (if isAbsolute path then [.root] else []) ++
    (path.toList.splitOn '/').filterMap Step.ofPart?

/-- A folded path: absolute, or relative with a number of leading steps to the parent. The root
is its own parent, so an absolute location has none. -/
structure Location where
  absolute : Bool
  ups : Nat
  names : List String
  ups_of_absolute : absolute = true → ups = 0 := by simp
deriving DecidableEq, Repr

namespace Location

def here : Location := ⟨false, 0, [], by simp⟩

/-- The location that some names lead to from the file system's root. -/
def ofNames (names : List String) : Location := ⟨true, 0, names, by simp⟩

def top : Location := ofNames []

/-- The parent: the last name is taken back, and with no name left the root stays and a relative
location climbs. -/
def parent (l : Location) : Location :=
  if l.names ≠ [] then { l with names := l.names.dropLast }
  else if h : l.absolute then l
  else { l with ups := l.ups + 1, ups_of_absolute := fun a => absurd a h }

def child (l : Location) (name : String) : Location :=
  { l with names := l.names ++ [name] }

@[simp] theorem parent_child (l : Location) (name : String) : (l.child name).parent = l := by
  simp [parent, child]

@[simp] theorem parent_top : top.parent = top := by
  simp [parent, top, ofNames]

def step (l : Location) : Step → Location
  | .root => top
  | .parent => l.parent
  | .name n => l.child n

/-- Where a path leads from `base`. -/
def resolve (base : Location) (path : String) : Location :=
  (Path.steps path).foldl step base

def ofPath (path : String) : Location :=
  here.resolve path

def steps (l : Location) : List Step :=
  (if l.absolute then [.root] else []) ++ List.replicate l.ups .parent ++ l.names.map .name

/-- The shortest path to a location; it is empty for `here`. -/
def toPath (l : Location) : String :=
  (if l.absolute then "/" else "") ++
    "/".intercalate (List.replicate l.ups ".." ++ l.names)

/-- Holds when the steps to `base` begin the steps to `l`. -/
def startsWith (l base : Location) : Bool :=
  base.steps.isPrefixOf l.steps

@[simp] theorem startsWith_self (l : Location) : l.startsWith l := by
  simp [startsWith]

/-- A location and those above it, each the one before it without its last name. -/
def ancestors (l : Location) : List Location :=
  (List.range (l.names.length + 1)).map fun k =>
    { l with names := l.names.take (l.names.length - k) }

end Location

end PathAudit
