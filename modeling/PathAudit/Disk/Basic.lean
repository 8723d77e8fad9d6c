import PathAudit.Location.Basic

/-! What the program asks of a file system: whether an entry exists and what it is, the text of
a file, and the working directory. A disk is the answers to these questions; a `Query` is a
computation that asks them, kept as data, so that it can be run against a disk given as a value
as well as against the machine's. -/

namespace PathAudit

inductive DiskError
  | notFound
  | alreadyExists
  | notDirectory
  | isDirectory
  | linkLoop
  | nameTooLong
  | nulInName
  | notText
  | emptyPath
  | other (text : String)
deriving DecidableEq, Repr

def DiskError.message : DiskError → String
  | .notFound => "No such file or directory (os error 2)"
  | .alreadyExists => "File exists (os error 17)"
  | .notDirectory => "Not a directory (os error 20)"
  | .isDirectory => "Is a directory (os error 21)"
  | .linkLoop => "Too many levels of symbolic links (os error 40)"
  | .nameTooLong => "File name too long (os error 36)"
  | .nulInName => "file name contained an unexpected NUL byte"
  | .notText => "stream did not contain valid UTF-8"
  | .emptyPath => "cannot make an empty path absolute"
  | .other text => text

/-- What an entry is once links are followed: a regular file, a folder, or something else, such
as a device. -/
inductive EntryKind
  | file
  | folder
  | special
deriving DecidableEq, Repr

/-- A state of the file system, as far as the program can see it. -/
structure Disk where
  /-- The entry that a path names, links followed, if it can be reached. -/
  entry : String → Option EntryKind
  /-- The text of the file that a path names. -/
  text : String → Except DiskError String
  /-- The working directory. -/
  workingDirectory : Except DiskError Location

/-- A computation that may ask the disk. -/
inductive Query (α : Type) where
  | done (a : α)
  | entry (path : String) (next : Option EntryKind → Query α)
  | text (path : String) (next : Except DiskError String → Query α)
  | workingDirectory (next : Except DiskError Location → Query α)

namespace Query

variable {α β : Type}

def bind : Query α → (α → Query β) → Query β
  | done a, f => f a
  | entry path next, f => entry path fun r => (next r).bind f
  | text path next, f => text path fun r => (next r).bind f
  | workingDirectory next, f => workingDirectory fun r => (next r).bind f

instance : Monad Query where
  pure := done
  bind := bind

def answer (disk : Disk) : Query α → α
  | done a => a
  | entry path next => (next (disk.entry path)).answer disk
  | text path next => (next (disk.text path)).answer disk
  | workingDirectory next => (next disk.workingDirectory).answer disk

@[simp] theorem answer_pure (disk : Disk) (a : α) : answer disk (pure a) = a := rfl

@[simp] theorem answer_bind (disk : Disk) (q : Query α) (f : α → Query β) :
    answer disk (q >>= f) = answer disk (f (answer disk q)) := by
  show answer disk (q.bind f) = _
  induction q with
  | done a => rfl
  | entry path next ih => exact ih _
  | text path next ih => exact ih _
  | workingDirectory next ih => exact ih _

def entryAt (path : String) : Query (Option EntryKind) := entry path done

def textAt (path : String) : Query (Except DiskError String) := text path done

@[simp] theorem answer_textAt (disk : Disk) (path : String) :
    (textAt path).answer disk = disk.text path := rfl

/-- The location of a path, a relative one taken from the working directory. The empty path has
none. -/
def locate (path : String) : Query (Except DiskError Location) :=
  if path.isEmpty then done (.error .emptyPath)
  else if Path.isAbsolute path then done (.ok (Location.ofPath path))
  else workingDirectory fun r => done (r.map (·.resolve path))

end Query

end PathAudit
