import PathAudit.Disk.Tree

/-! Changes of file trees in memory, namely those that setting up a project needs: making folders,
files and links, and removing entries. Paths are taken from the root of the tree. -/

namespace PathAudit

/-- A change of a tree. What was changed before it failed stays changed. -/
abbrev Change := ExceptT DiskError (StateM Node)

namespace Change

def applyTo {α : Type} (change : Change α) (tree : Node) : Node := (change.run.run tree).2

/-- The names that lead to the entry that some parts name, whether it is there or not, links in its
place not followed. A last part `.` or `..` names no entry of its own: where it leads is where it
stands. -/
def slot (tree : Node) (parts : List String) : Except DiskError (List String) := do
  match parts.getLast? with
  | none => pure []
  | some last =>
    if last = "." ∨ last = ".." then Tree.walk tree Tree.mostLinks [] parts
    else
      let folder ← Tree.walk tree Tree.mostLinks [] (parts.dropLast ++ ["."])
      if last.utf8ByteSize > Tree.longestName then throw .nameTooLong
      pure (folder ++ [last])

/-- Puts a new entry where there is none, not even a link. -/
def create (parts : List String) (new : Node) : Change Unit := do
  let place ← slot (← get) parts
  if ((← get).at? place).isSome then throw .alreadyExists
  modify (·.set (some new) place)

def makeLink (path target : String) : Change Unit := do
  Tree.vet target
  Tree.vet path
  create (Tree.parts path) (.link target)

def isFolder (tree : Node) (path : String) : Bool :=
  match Tree.entry tree (some []) path with
  | .ok (.folder _) => true
  | _ => false

/-- The path of the folder above. Slashes and parts `.` before its end are left out. -/
def above (path : String) : String :=
  let isEmpty := fun (piece : List Char) => piece.isEmpty || piece == ['.']
  let last := (path.toList.splitOn '/').reverse.dropWhile isEmpty
  let rest := ((last.drop 1).dropWhile isEmpty).reverse
  if rest.isEmpty then "/" else String.ofList (['/'].intercalate rest)

/-- Makes one folder, or keeps the one that is there. Slashes at its end ask for nothing. -/
def makeLastFolder (path : String) : Change Unit :=
  tryCatch
    (do
      Tree.vet path
      let parts := Tree.parts path
      create (if path.toList.getLast? = some '/' then parts.dropLast else parts) .emptyFolder)
    fun e => do if isFolder (← get) path then pure () else throw e

/-- Makes a folder and the folders above it, of which at most so many are missing. -/
def makeFolders (path : String) : Nat → Change Unit
  | 0 => throw .notFound
  | depth + 1 =>
    tryCatch (makeLastFolder path) fun
      | .notFound => do
        makeFolders (above path) depth
        makeLastFolder path
      | e => throw e

def makeFolder (path : String) : Change Unit :=
  makeFolders path ((Tree.parts path).length + 1)

def writeFile (path : String) (content : ByteArray) : Change Unit := do
  let place ← Tree.place (← get) (some []) path
  match (← get).at? place with
  | some (.folder _) => throw .isDirectory
  | _ => modify (·.set (some (.file content)) place)

/-- Removes an entry, a folder with all its entries and a link by itself, and answers the names
that led to it. -/
def remove (path : String) : Change (List String) := do
  Tree.vet path
  let place ← slot (← get) (Tree.parts path)
  if ((← get).at? place).isNone then throw .notFound
  modify (·.set none place)
  return place

end Change

end PathAudit
