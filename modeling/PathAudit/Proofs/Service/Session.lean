import PathAudit.Proofs.Checker.Findings
import PathAudit.Proofs.Sources.History

/-! Sessions of a service with path checks. Between questions its sources are edited or loaded anew,
and the disk changes. A session owes to its past the disk as it is and a set of sources that
reflects the edits since the last load; what it answers follows from these. -/

namespace PathAudit

/-- A service that is kept around a set of sources. It may keep the sources to itself. -/
structure Wrapped where
  around : SourceSet → Service
  sources_around : ∀ p, (around p).sources = some p ∨ (around p).sources = none

def Wrapped.ofSources : Wrapped := ⟨Service.ofSources, fun _ => .inl rfl⟩

inductive Event
  | edit (e : Edit)
  | load (paths : List String)
  | diskChange (new : Disk)
  | ask (name : String)

/-- A service with path checks, the sources it is kept around, and the disk it asks. -/
structure Session where
  wrapped : Wrapped
  checker : Checker
  sources : SourceSet
  disk : Disk

namespace Session

def start (wrapped : Wrapped) (checker : Checker) (disk : Disk) : Session :=
  ⟨wrapped, checker, .empty, disk⟩

def inner (s : Session) : Service := s.wrapped.around s.sources

def answer (s : Session) (name : String) : List Diagnostic :=
  (((s.inner.withPathChecks s.checker).semantic name).answer s.disk)

/-- The session after an event. A load that fails changes nothing. -/
def step (s : Session) : Event → Session
  | .edit e => { s with sources := s.sources.edit e }
  | .load paths => match (SourceSet.ofFiles paths).answer s.disk with
    | .ok p => { s with sources := p }
    | .error _ => s
  | .diskChange new => { s with disk := new }
  | .ask _ => s

def run (s : Session) (events : List Event) : Session := events.foldl step s

/-- What the service answers to the questions among some events. -/
def transcript (s : Session) : List Event → List (List Diagnostic)
  | [] => []
  | .ask name :: events => s.answer name :: s.transcript events
  | .edit e :: events => (s.step (.edit e)).transcript events
  | .load paths :: events => (s.step (.load paths)).transcript events
  | .diskChange new :: events => (s.step (.diskChange new)).transcript events

theorem transcript_append (s : Session) (before after : List Event) :
    s.transcript (before ++ after) = s.transcript before ++ (s.run before).transcript after := by
  induction before generalizing s with
  | nil => rfl
  | cons e before ih =>
    cases e with
    | ask name => exact congrArg (s.answer name :: ·) (ih s)
    | edit e => exact ih (s.step (.edit e))
    | load paths => exact ih (s.step (.load paths))
    | diskChange new => exact ih (s.step (.diskChange new))

end Session

/-- What events alone tell: the edits since the sources were last loaded, each loaded file counted
as an edit, and the disk. -/
structure Past where
  edits : List Edit
  disk : Disk

namespace Past

/-- The past with one more event. -/
def step (past : Past) : Event → Past
  | .edit e => { past with edits := past.edits ++ [e] }
  | .load paths => match paths.mapM past.disk.source with
    | .ok added => { past with edits := added.map .insert }
    | .error _ => past
  | .diskChange new => { past with disk := new }
  | .ask _ => past

def ofEvents (disk : Disk) (events : List Event) : Past := events.foldl step ⟨[], disk⟩

def findings (past : Past) (checker : Checker) (name : String) : List Diagnostic :=
  match Edit.lastText past.edits name with
  | some text => checker.rejectedIn past.disk name text
  | none => []

end Past

namespace Session

variable {wrapped : Wrapped} {checker : Checker} {s : Session} {past : Past}

/-- What a session owes to its beginning and to its past. -/
structure Matches (s : Session) (wrapped : Wrapped) (checker : Checker) (past : Past) : Prop where
  wrapped_eq : s.wrapped = wrapped
  checker_eq : s.checker = checker
  disk_eq : s.disk = past.disk
  sources : s.sources.Reflects past.edits

theorem matches_start (wrapped : Wrapped) (checker : Checker) (disk : Disk) :
    (start wrapped checker disk).Matches wrapped checker ⟨[], disk⟩ :=
  ⟨rfl, rfl, rfl, SourceSet.reflects_empty⟩

theorem Matches.step (h : s.Matches wrapped checker past) (e : Event) :
    (s.step e).Matches wrapped checker (past.step e) := by
  obtain ⟨hwrapped, hchecker, hdisk, hsources⟩ := h
  cases e with
  | edit e => exact ⟨hwrapped, hchecker, hdisk, hsources.edit e⟩
  | load paths =>
    simp only [Session.step, Past.step, SourceSet.answer_ofFiles, hdisk]
    cases paths.mapM past.disk.source with
    | error e => exact ⟨hwrapped, hchecker, hdisk, hsources⟩
    | ok added => exact ⟨hwrapped, hchecker, rfl, SourceSet.reflects_empty.run _⟩
  | diskChange new => exact ⟨hwrapped, hchecker, rfl, hsources⟩
  | ask name => exact ⟨hwrapped, hchecker, hdisk, hsources⟩

theorem Matches.run (h : s.Matches wrapped checker past) (events : List Event) :
    (s.run events).Matches wrapped checker (events.foldl Past.step past) := by
  induction events generalizing s past with
  | nil => exact h
  | cons e events ih => exact ih (h.step e)

/-- A session answers what its wrapped service finds and then, if the service shows its sources, the
path findings that its past tells. -/
theorem Matches.answer_eq (h : s.Matches wrapped checker past) (name : String) :
    s.answer name = (s.inner.semantic name).answer past.disk ++
      if s.inner.sources.isSome then past.findings checker name else [] := by
  rw [answer, Service.answer_semantic_withPathChecks, h.disk_eq, h.checker_eq]
  congr 1
  rcases s.wrapped.sources_around s.sources with hshown | hhidden
  · rw [inner, hshown, Option.bind_some, h.sources.text_get?]
    rfl
  · rw [inner, hhidden]
    rfl

/-- Each question in a session is answered by what the wrapped service finds, unchanged and first,
and then by one finding for each path declaration in the latest text under the name that is
rejected on the disk as it is, in the order of the text; by nothing more where the name has no
text or the service shows no sources. The root and the settings stay those of the beginning. -/
theorem transcript_ask (wrapped : Wrapped) (checker : Checker) (disk : Disk)
    (before after : List Event) (name : String) :
    let begun := start wrapped checker disk
    let now := begun.run before
    let past := Past.ofEvents disk before
    now.Matches wrapped checker past ∧
      begun.transcript (before ++ .ask name :: after) =
        begun.transcript before ++
          ((now.inner.semantic name).answer past.disk ++
            if now.inner.sources.isSome then past.findings checker name else []) ::
          now.transcript after := by
  intro begun now past
  have hnow : now.Matches wrapped checker past := (matches_start wrapped checker disk).run before
  refine ⟨hnow, ?_⟩
  rw [transcript_append, ← hnow.answer_eq]
  rfl

def hostDisk (present : Bool) : Disk where
  entry path := if present ∧ path = "/r/gone" then some .file else none
  text path := if path = "a.ts" then .ok strayDeclaration else .error .notFound
  workingDirectory := .ok (Location.ofNames ["r"])

theorem rejectedIn_hostDisk (present : Bool) (name : String) :
    (⟨.default, .ofNames ["r"]⟩ : Checker).rejectedIn (hostDisk present) name strayDeclaration =
      if present then [] else
        [⟨.error, 9999, "Invalid path: \"gone\" does not exist or is not accessible", some name,
          some ⟨23, 6⟩⟩] := by
  have hrejects : (⟨.default, .ofNames ["r"]⟩ : Checker).rejects (hostDisk present)
      ⟨.file, "p", "gone", ⟨23, 29⟩⟩ = !present := by
    cases present <;> rfl
  rw [Checker.rejectedIn, pathDeclarations_strayDeclaration.2, List.filter_cons, hrejects]
  cases present <;> rfl

/-- A declaration is found missing once the file is gone, and then under the name that is loaded. -/
theorem transcript_follows_past :
    let missing (name : String) : Diagnostic :=
      ⟨.error, 9999, "Invalid path: \"gone\" does not exist or is not accessible", some name,
        some ⟨23, 6⟩⟩
    (start .ofSources ⟨.default, .ofNames ["r"]⟩ (hostDisk true)).transcript
      [.edit (.insert ⟨"b.ts", strayDeclaration⟩), .ask "b.ts", .diskChange (hostDisk false),
        .ask "b.ts", .load ["a.ts"], .ask "a.ts"] =
      [[], [missing "b.ts"], [missing "a.ts"]] := by
  intro missing
  let checker : Checker := ⟨.default, .ofNames ["r"]⟩
  let edited : List Event := [.edit (.insert ⟨"b.ts", strayDeclaration⟩)]
  let changed : List Event := edited ++ [.ask "b.ts", .diskChange (hostDisk false)]
  let loaded : List Event := changed ++ [.ask "b.ts", .load ["a.ts"]]
  have answers := transcript_ask .ofSources checker (hostDisk true)
  calc (start .ofSources checker (hostDisk true)).transcript (loaded ++ [.ask "a.ts"])
    _ = _ := (answers loaded [] "a.ts").2
    _ = _ := congrArg (· ++ _) (answers changed [.load ["a.ts"]] "b.ts").2
    _ = _ := congrArg (· ++ _ ++ _) (answers edited [.diskChange (hostDisk false)] "b.ts").2
    _ = [checker.rejectedIn (hostDisk true) "b.ts" strayDeclaration,
          checker.rejectedIn (hostDisk false) "b.ts" strayDeclaration,
          checker.rejectedIn (hostDisk false) "a.ts" strayDeclaration] := rfl
    _ = _ := by
      rw [rejectedIn_hostDisk, rejectedIn_hostDisk, rejectedIn_hostDisk]
      rfl

end Session

end PathAudit
