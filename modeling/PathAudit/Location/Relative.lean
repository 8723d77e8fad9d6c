import PathAudit.Location.Basic

/-! The way from one location to another. -/

namespace PathAudit

/-- Drops from two lists the longest run of members that both begin with. -/
def dropCommon {α : Type} [DecidableEq α] : List α → List α → List α × List α
  | a :: as, b :: bs => if a = b then dropCommon as bs else (a :: as, b :: bs)
  | as, bs => (as, bs)

/-- The way from `base` to a location: up once for each step that only `base` takes, then the
steps that only the location takes. Between an absolute and a relative location there is no
way, and the location stands for itself. -/
def Location.relativeTo (l base : Location) : Location :=
  if base.absolute = l.absolute then
    let (back, on) := dropCommon base.steps l.steps
    on.foldl step ⟨false, back.length, [], by simp⟩
  else l

/-- Holds when the way from `base` does not lead out of `base`. -/
def Location.within (l base : Location) : Bool :=
  let way := l.relativeTo base
  !way.absolute && way.ups == 0

end PathAudit
