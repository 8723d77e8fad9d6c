import Mathlib.Data.List.Nodup
import PathAudit.Json.Value

/-! The members of an object by ascending key. An object has each key once, so the order of its keys
is all that there is to tell of it. -/

namespace PathAudit.Json

variable {members sorted : List (String × Json)} {v : Json} {key : String}

theorem lookup_eq_some_iff_mem (hkeys : (members.map Prod.fst).Nodup) :
    members.lookup key = some v ↔ (key, v) ∈ members := by
  have hmem {w : Json} (h : members.lookup key = some w) : (key, w) ∈ members := by
    obtain ⟨before, after, rfl, -⟩ := List.lookup_eq_some_iff.1 h
    exact List.mem_append_right _ List.mem_cons_self
  refine ⟨hmem, fun h => ?_⟩
  obtain ⟨w, hw⟩ : ∃ w, members.lookup key = some w :=
    Option.isSome_iff_exists.1 (List.lookup_isSome_iff.2 ⟨(key, v), h, beq_self_eq_true key⟩)
  have hsame : (key, w) = (key, v) := List.inj_on_of_nodup_map hkeys (hmem hw) h rfl
  rw [hw, (Prod.mk.inj hsame).2]

theorem pairwise_sortMembers (members : List (String × Json)) :
    (sortMembers members).Pairwise fun a b => a.1 ≤ b.1 := by
  refine (List.pairwise_mergeSort ?_ ?_ members).imp of_decide_eq_true
  · intro a b c hab hbc
    exact decide_eq_true (String.le_trans (of_decide_eq_true hab) (of_decide_eq_true hbc))
  · intro a b
    simpa using String.le_total a.1 b.1

/-- Members with different keys have one order by key. -/
theorem eq_of_perm_of_ascending (hperm : members.Perm sorted)
    (hmembers : members.Pairwise fun a b => a.1 ≤ b.1)
    (hsorted : (sorted.map Prod.fst).Pairwise (· < ·)) : members = sorted := by
  have hkeys : (sorted.map Prod.fst).Nodup := by
    refine hsorted.imp fun hab he => ?_
    exact String.lt_irrefl _ (he ▸ hab)
  have hordered : sorted.Pairwise fun a b => a.1 ≤ b.1 :=
    (List.pairwise_map.1 hsorted).imp fun hab => String.not_lt.1 (String.lt_asymm hab)
  refine List.Perm.eq_of_pairwise ?_ hmembers hordered hperm
  intro a b ha hb hab hba
  exact List.inj_on_of_nodup_map hkeys (hperm.mem_iff.1 ha) hb (String.le_antisymm hab hba)

theorem sortMembers_eq_of_perm (hperm : members.Perm sorted)
    (hsorted : (sorted.map Prod.fst).Pairwise (· < ·)) : sortMembers members = sorted :=
  eq_of_perm_of_ascending ((List.mergeSort_perm members _).trans hperm)
    (pairwise_sortMembers members) hsorted

/-- By ascending key, the members under some keys are what is looked up under each of them. -/
theorem filter_sortMembers {keys : List String} (hkeys : (members.map Prod.fst).Nodup)
    (hascending : keys.Pairwise (· < ·)) :
    (sortMembers members).filter (fun m => keys.contains m.1) =
      keys.filterMap fun key => (members.lookup key).map (key, ·) := by
  have hsorted : (sortMembers members).Perm members := List.mergeSort_perm members _
  have hmem (m : String × Json) : m ∈ (sortMembers members).filter (fun m => keys.contains m.1) ↔
      m ∈ keys.filterMap fun key => (members.lookup key).map (key, ·) := by
    simp only [List.mem_filter, hsorted.mem_iff, List.contains_iff_mem, List.mem_filterMap,
      Option.map_eq_some_iff]
    constructor
    · rintro ⟨hm, hkey⟩
      exact ⟨m.1, hkey, m.2, (lookup_eq_some_iff_mem hkeys).2 hm, rfl⟩
    · rintro ⟨key, hkey, v, hv, rfl⟩
      exact ⟨(lookup_eq_some_iff_mem hkeys).1 hv, hkey⟩
  have hlookedUp : (keys.filterMap fun key => (members.lookup key).map (key, ·)).Pairwise
      fun a b => a.1 < b.1 := by
    refine List.pairwise_filterMap.2 (hascending.imp fun hab => ?_)
    rintro a ha b hb
    obtain ⟨-, -, rfl⟩ := Option.map_eq_some_iff.1 ha
    obtain ⟨-, -, rfl⟩ := Option.map_eq_some_iff.1 hb
    exact hab
  refine eq_of_perm_of_ascending ?_ ((pairwise_sortMembers members).filter _)
    (List.pairwise_map.2 hlookedUp)
  refine (List.perm_ext_iff_of_nodup ?_ ?_).2 hmem
  · exact (hsorted.nodup_iff.2 hkeys.of_map).filter _
  · refine List.nodup_iff_pairwise_ne.2 (hlookedUp.imp fun hab => ?_)
    rintro rfl
    exact String.lt_irrefl _ hab

end PathAudit.Json
