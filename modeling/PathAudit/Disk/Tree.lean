import PathAudit.Disk.Basic

/-! File trees in memory. A path is walked entry by entry: links are followed where they stand, so
`..` after a link leads to the parent of what it points to. -/

namespace PathAudit

/-- A file with its bytes, a folder with its entries, or a link to a path. -/
inductive Node
  | file (content : ByteArray)
  | link (target : String)
  | folder (entries : List (String × Node))

namespace Node

def emptyFolder : Node := folder []

def child? (name : String) : Node → Option Node
  | folder entries => (entries.find? (·.1 == name)).map Prod.snd
  | _ => none

/-- The entry at the end of some names, links not followed. -/
def at? : Node → List String → Option Node
  | n, [] => some n
  | n, name :: names => (n.child? name).bind (·.at? names)

def replaceEntry (name : String) (new : Option Node) (entries : List (String × Node)) :
    List (String × Node) :=
  let others := entries.filter (·.1 != name)
  match new with
  | some n => others ++ [(name, n)]
  | none => others

/-- The tree with this entry, or none, at the end of some names, whose folder must be there. -/
def set (new : Option Node) : Node → List String → Node
  | folder entries, [name] => folder (replaceEntry name new entries)
  | folder entries, name :: names =>
    match (folder entries).child? name with
    | some n => folder (replaceEntry name (some (n.set new names)) entries)
    | none => folder entries
  | n, _ => n

end Node

namespace Tree

/-- The parts of a path that a walk goes through, `.` and `..` among them. A slash at the end
asks for a folder, like a last part `.`. -/
def parts (path : String) : List String :=
  let pieces := path.toList.splitOn '/'
  let named := (pieces.filter (!·.isEmpty)).map String.ofList
  if pieces.length > 1 ∧ pieces.getLast? = some [] then named ++ ["."] else named

/-- The longest path that can be asked for, in bytes. -/
def longestPath : Nat := 4095

def longestName : Nat := 255

def mostLinks : Nat := 40

/-- Walks some parts from the folder at the end of the names `place`, and answers the names that
lead to the entry there without links. A last part may name an entry that does not exist. -/
def walk (tree : Node) (links : Nat) (place : List String) (parts : List String) :
    Except DiskError (List String) :=
  match parts with
  | [] => .ok place
  | part :: rest =>
    match tree.at? place with
    | some (.folder _) =>
      if part = "." then walk tree links place rest
      else if part = ".." then walk tree links place.dropLast rest
      else if part.utf8ByteSize > longestName then .error .nameTooLong
      else match tree.at? (place ++ [part]) with
        | none => if rest.isEmpty then .ok (place ++ [part]) else .error .notFound
        | some (.link target) =>
          match links with
          | 0 => .error .linkLoop
          | links + 1 =>
            walk tree links (if Path.isAbsolute target then [] else place)
              (Tree.parts target ++ rest)
        | some _ => walk tree links (place ++ [part]) rest
    | some _ => .error .notDirectory
    | none => .error .notFound
termination_by (links, parts.length)

/-- Refuses a path that is not looked for at all. -/
def vet (path : String) : Except DiskError Unit :=
  if path.toList.contains '\x00' then .error .nulInName
  else if path.isEmpty then .error .notFound
  else if path.utf8ByteSize > longestPath then .error .nameTooLong
  else .ok ()

/-- Where a path leads. A relative path needs a working directory that is there. -/
def place (tree : Node) (directory : Option (List String)) (path : String) :
    Except DiskError (List String) := do
  vet path
  if Path.isAbsolute path then walk tree mostLinks [] (parts path)
  else match directory with
    | some names => walk tree mostLinks names (parts path)
    | none => throw .notFound

def entry (tree : Node) (directory : Option (List String)) (path : String) :
    Except DiskError Node := do
  match tree.at? (← place tree directory path) with
  | some n => .ok n
  | none => .error .notFound

def text (tree : Node) (directory : Option (List String)) (path : String) :
    Except DiskError String := do
  match ← entry tree directory path with
  | .file content =>
    match String.fromUTF8? content with
    | some s => .ok s
    | none => .error .notText
  | _ => .error .isDirectory

def kind? : Node → Option EntryKind
  | .file _ => some .file
  | .folder _ => some .folder
  | .link _ => none

def disk (tree : Node) (directory : Option (List String)) : Disk where
  entry path := (entry tree directory path).toOption.bind kind?
  text path := text tree directory path
  workingDirectory := match directory with
    | some names => .ok (Location.ofNames names)
    | none => .error .notFound

end Tree

end PathAudit
