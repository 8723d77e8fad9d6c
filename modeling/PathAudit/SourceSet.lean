import PathAudit.Disk.Basic
import PathAudit.Syntax.Parser

/-! Sources, and sets of them: in the order in which they came, each name once. -/

namespace PathAudit

structure Source where
  name : String
  text : String
deriving DecidableEq, Repr

namespace Source

def outline (s : Source) : Module := (Parsed.ofText s.text).outline

def errors (s : Source) : List Unrecognized := (Parsed.ofText s.text).errors

end Source

structure SourceSet where
  sources : List Source
  names_nodup : (sources.map Source.name).Nodup

namespace SourceSet

def empty : SourceSet := ⟨[], by simp⟩

def names (p : SourceSet) : List String := p.sources.map Source.name

def get? (p : SourceSet) (name : String) : Option Source :=
  p.sources.find? (·.name == name)

/-- The sources with `new` in the place of the source of its name, or else at the end. -/
def put (sources : List Source) (new : Source) : List Source :=
  if new.name ∈ sources.map Source.name then
    sources.map fun s => if s.name = new.name then new else s
  else sources ++ [new]

/-- Replacing keeps all names, and a new name comes last. -/
theorem map_name_put (sources : List Source) (new : Source) :
    (put sources new).map Source.name =
      if new.name ∈ sources.map Source.name then sources.map Source.name
      else sources.map Source.name ++ [new.name] := by
  unfold put
  split
  · rw [List.map_map]
    apply List.map_congr_left
    intro s _
    simp only [Function.comp_apply]
    split <;> simp_all
  · simp

def insert (p : SourceSet) (new : Source) : SourceSet where
  sources := put p.sources new
  names_nodup := by
    rw [map_name_put]
    split
    · exact p.names_nodup
    · next h =>
      rw [List.nodup_append]
      refine ⟨p.names_nodup, by simp, ?_⟩
      intro a ha b hb
      simp only [List.mem_singleton] at hb
      subst hb
      exact fun e => h (e ▸ ha)

@[simp] theorem names_insert (p : SourceSet) (new : Source) :
    (p.insert new).names = if new.name ∈ p.names then p.names else p.names ++ [new.name] :=
  map_name_put p.sources new

theorem find?_put_self (sources : List Source) (new : Source) :
    (put sources new).find? (·.name == new.name) = some new := by
  unfold put
  split
  · next h =>
    rw [List.find?_map]
    obtain ⟨s, hs, hn⟩ := List.mem_map.1 h
    cases hf : sources.find?
        ((·.name == new.name) ∘ fun s => if s.name = new.name then new else s) with
    | none =>
      have := List.find?_eq_none.1 hf s hs
      simp [hn] at this
    | some t =>
      have ht := List.find?_some hf
      by_cases e : t.name = new.name <;> simp_all
  · next h =>
    rw [List.find?_append, List.find?_eq_none.2]
    · simp
    · intro s hs hn
      exact h (List.mem_map.2 ⟨s, hs, by simpa using hn⟩)

/-- What was added is found under its name. -/
@[simp] theorem get?_insert_self (p : SourceSet) (new : Source) :
    (p.insert new).get? new.name = some new :=
  find?_put_self p.sources new

def erase (p : SourceSet) (name : String) : SourceSet where
  sources := p.sources.filter (·.name != name)
  names_nodup := p.names_nodup.sublist (List.filter_sublist.map _)

@[simp] theorem names_erase (p : SourceSet) (name : String) :
    (p.erase name).names = p.names.filter (· != name) := by
  simp [names, erase, List.filter_map, Function.comp_def]

/-- What was removed is found no more. -/
@[simp] theorem get?_erase_self (p : SourceSet) (name : String) :
    (p.erase name).get? name = none := by
  simp [get?, erase]

/-- Adds the texts of the files at some paths, named by their paths, and stops at the first file
that cannot be read. -/
def insertFiles (p : SourceSet) : List String → Query (Except DiskError SourceSet)
  | [] => pure (.ok p)
  | path :: paths => do
    match ← Query.textAt path with
    | .error e => pure (.error e)
    | .ok text => insertFiles (p.insert ⟨path, text⟩) paths

def ofFiles (paths : List String) : Query (Except DiskError SourceSet) :=
  empty.insertFiles paths

end SourceSet

end PathAudit
