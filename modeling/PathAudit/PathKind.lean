/-! What a path is declared to name: a file, a folder, or either. -/

namespace PathAudit

inductive PathKind
  | file
  | folder
  | any
deriving DecidableEq, Repr

namespace PathKind

def all : List PathKind := [.file, .folder, .any]

def name : PathKind → String
  | .file => "file"
  | .folder => "folder"
  | .any => "any"

/-- The type name that marks a declaration as a path of the kind. -/
def marker : PathKind → String
  | .file => "FilePathStr"
  | .folder => "FolderPathStr"
  | .any => "AnyPathStr"

def defaultMessage : PathKind → String
  | .file => "Invalid file path"
  | .folder => "Invalid folder path"
  | .any => "Invalid path"

def ofMarker? (name : String) : Option PathKind :=
  all.find? (·.marker == name)

def ofName? (name : String) : Option PathKind :=
  all.find? (·.name == name)

@[simp] theorem ofMarker?_marker (k : PathKind) : ofMarker? k.marker = some k := by
  cases k <;> decide

@[simp] theorem ofName?_name (k : PathKind) : ofName? k.name = some k := by
  cases k <;> decide

end PathKind

end PathAudit
