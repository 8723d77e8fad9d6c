import PathAudit.Config.Host
import PathAudit.Proofs.Config.File
import PathAudit.Proofs.Json.Members

/-! What a host's object gives. Its members are read by ascending key, and those that are no setting are
passed over, so that only what stands under the names of settings counts. -/

namespace PathAudit

variable {members others : List (String × Json)} {v : Json} {key : String}

theorem bind_eq_ok_iff {ε α β : Type} {x : Except ε α} {f : α → Except ε β} {b : β} :
    (x >>= f) = .ok b ↔ ∃ a, x = .ok a ∧ f a = .ok b :=
  ⟨exists_of_bind_eq_ok, fun ⟨_, hx, hf⟩ => by rw [hx]; exact hf⟩

theorem map_eq_ok_iff {ε α β : Type} {x : Except ε α} {f : α → β} {b : β} :
    f <$> x = .ok b ↔ ∃ a, x = .ok a ∧ f a = b :=
  ⟨exists_of_map_eq_ok, fun ⟨_, hx, hf⟩ => by rw [hx]; exact congrArg _ hf⟩

namespace Json

/-- A severity is written by its name, or as an object with its name as the only key and null there. -/
theorem toVariant_severity_eq_ok_iff {s : Severity} :
    v.toVariant Severity.all Severity.name = .ok s ↔
      v = .string s.name ∨ v = .object [(s.name, .null)] := by
  have hname (n : String) : (string n).toVariant Severity.all Severity.name = .ok s ↔ n = s.name := by
    simp only [toVariant]
    constructor
    · intro h
      split at h
      · next hfound =>
        cases h
        exact (beq_iff_eq.1 (List.find?_some hfound :)).symm
      · cases h
    · rintro rfl
      rw [show Severity.all.find? (Severity.name · == s.name) = some s from Severity.ofName?_name s]
  have hmember (n : String) (content : Json) :
      (object [(n, content)]).toVariant Severity.all Severity.name = .ok s ↔
        n = s.name ∧ content = .null := by
    rw [← hname]
    simp only [toVariant]
    split <;> cases content <;> simp [bind, Except.bind, pure, Except.pure]
  match v with
  | string n => simp [hname]
  | object [(n, content)] => simp [hmember]
  | object [] => simp [toVariant]
  | object (_ :: _ :: _) => simp [toVariant]
  | null => simp [toVariant]
  | boolean _ => simp [toVariant]
  | integer _ => simp [toVariant]
  | decimal _ => simp [toVariant]
  | array _ => simp [toVariant]

theorem toBool_eq_ok_iff {b : Bool} : v.toBool = .ok b ↔ v = .boolean b := by
  cases v <;> simp [toBool]

end Json

def HostSettings.names : List String := ["severity", "strictKinds", "strict_kinds"]

namespace Config

/-- What may stand for a severity: nothing for the default, or what a severity is written as. -/
def SeverityGiven (given : Option Json) (s : Severity) : Prop :=
  match given with
  | none => s = .error
  | some v => v = .string s.name ∨ v = .object [(s.name, .null)]

/-- What may stand for the strictness under its two spellings: nothing for the default, or under one of them
what it is written as. -/
def StrictnessGiven (spelling other : Option Json) (strictKinds : Bool) : Prop :=
  match spelling, other with
  | none, none => strictKinds = false
  | some v, none => v = .boolean strictKinds
  | none, some v => v = .boolean strictKinds
  | some _, some _ => False

end Config

namespace HostSettings

open Config

variable {s : HostSettings} {c : Config}

theorem read_foreign {m : String × Json} (h : m.1 ∉ names) : s.read m = .ok s := by
  simp only [names, List.mem_cons, List.not_mem_nil, or_false, not_or] at h
  rw [read, if_neg h.1, if_neg (not_or.2 h.2)]
  rfl

theorem read_severity (s : HostSettings) (v : Json) : s.read ("severity", v) =
    (fun x => { s with severity := some x }) <$> v.toVariant Severity.all Severity.name := by
  rw [← bind_pure_comp]
  rfl

theorem read_strictness {name : String} (hname : name ∈ ["strictKinds", "strict_kinds"])
    (h : s.strictKinds = none) (v : Json) :
    s.read (name, v) = (fun b => { s with strictKinds := some b }) <$> v.toBool := by
  rw [← bind_pure_comp]
  obtain ⟨severity, strictKinds⟩ := s
  cases h
  obtain rfl | rfl : name = "strictKinds" ∨ name = "strict_kinds" := by simpa using hname
  · rfl
  · rfl

theorem read_strictness_again {name : String} (hname : name ∈ ["strictKinds", "strict_kinds"])
    {b : Bool} (h : s.strictKinds = some b) (v : Json) :
    s.read (name, v) = .error (.duplicateField "strictKinds") := by
  obtain ⟨severity, strictKinds⟩ := s
  cases h
  obtain rfl | rfl : name = "strictKinds" ∨ name = "strict_kinds" := by simpa using hname
  · rfl
  · rfl

theorem foldlM_read_eq_filter (members : List (String × Json)) (s : HostSettings) :
    members.foldlM read s = (members.filter (fun m => names.contains m.1)).foldlM read s := by
  induction members generalizing s with
  | nil => rfl
  | cons m members ih =>
    by_cases hm : m.1 ∈ names
    · rw [List.filter_cons, if_pos (List.contains_iff_mem.2 hm), List.foldlM_cons, List.foldlM_cons]
      exact congrArg (s.read m >>= ·) (funext ih)
    · rw [List.filter_cons, if_neg (mt List.contains_iff_mem.1 hm), List.foldlM_cons, read_foreign hm]
      exact ih s

/-- After the severity, the strictness is read under its two spellings. -/
theorem config_foldlM_spellings_eq_ok_iff (given : String → Option Json) (h : s.strictKinds = none) :
    config <$> (["strictKinds", "strict_kinds"].filterMap fun name =>
      (given name).map (name, ·)).foldlM read s = .ok c ↔
    s.severity.getD .error = c.severity ∧
      StrictnessGiven (given "strictKinds") (given "strict_kinds") c.strictKinds := by
  obtain ⟨severity, strictKinds⟩ := c
  have hconfig (b : Option Bool) : HostSettings.config { s with strictKinds := b } =
      ⟨severity, strictKinds⟩ ↔ s.severity.getD .error = severity ∧ b.getD false = strictKinds := by
    simp [config, Config.default]
  -- A spelling that is used is read, and then the other must not be.
  have hone {name : String} (hname : name ∈ ["strictKinds", "strict_kinds"]) (v : Json) :
      config <$> [(name, v)].foldlM read s = .ok ⟨severity, strictKinds⟩ ↔
        s.severity.getD .error = severity ∧ v = .boolean strictKinds := by
    simp only [List.foldlM_cons, List.foldlM_nil, bind_pure, read_strictness hname h, Functor.map_map,
      map_eq_ok_iff, hconfig, Option.getD_some, Json.toBool_eq_ok_iff]
    constructor
    · rintro ⟨b, hv, hseverity, rfl⟩
      exact ⟨hseverity, hv⟩
    · rintro ⟨hseverity, hv⟩
      exact ⟨_, hv, hseverity, rfl⟩
  rw [List.filterMap_cons, List.filterMap_cons, List.filterMap_nil]
  cases given "strictKinds" with
  | none =>
    cases given "strict_kinds" with
    | none =>
      have hs : s = { s with strictKinds := none } := by rw [← h]
      rw [Option.map_none, Option.map_none, List.foldlM_nil, map_pure, hs]
      simpa [StrictnessGiven, pure, Except.pure, eq_comm (a := false)] using hconfig none
    | some v => exact hone (by simp) v
  | some v =>
    cases given "strict_kinds" with
    | none => exact hone (by simp) v
    | some w =>
      simp only [StrictnessGiven, and_false, iff_false]
      rw [Option.map_some, Option.map_some, List.foldlM_cons, read_strictness (by simp) h,
        bind_map_left, map_bind, bind_eq_ok_iff]
      rintro ⟨b, -, hb⟩
      rw [List.foldlM_cons, read_strictness_again (by simp) rfl] at hb
      cases hb

/-- What stands under the names of settings is read as the settings that it stands for. -/
theorem config_foldlM_names_eq_ok_iff (given : String → Option Json) :
    config <$> (names.filterMap fun name => (given name).map (name, ·)).foldlM read ⟨none, none⟩ =
      .ok c ↔
    SeverityGiven (given "severity") c.severity ∧
      StrictnessGiven (given "strictKinds") (given "strict_kinds") c.strictKinds := by
  rw [names, List.filterMap_cons]
  cases given "severity" with
  | none =>
    rw [Option.map_none, config_foldlM_spellings_eq_ok_iff given rfl]
    simp only [SeverityGiven]
    exact and_congr_left fun _ => eq_comm
  | some v =>
    have hspelled (x : Severity) := @config_foldlM_spellings_eq_ok_iff ⟨some x, none⟩ c given rfl
    rw [Option.map_some, List.foldlM_cons, read_severity, bind_map_left, map_bind, bind_eq_ok_iff]
    simp only [hspelled, Option.getD_some, SeverityGiven, Json.toVariant_severity_eq_ok_iff]
    constructor
    · rintro ⟨x, hv, rfl, hstrict⟩
      exact ⟨hv, hstrict⟩
    · rintro ⟨hv, hstrict⟩
      exact ⟨_, hv, rfl, hstrict⟩

end HostSettings

namespace Config

/-- The settings of an object are read from what it has under their names. -/
theorem ofJson_object (hkeys : (members.map Prod.fst).Nodup) : ofJson (.object members) =
    HostSettings.config <$> (HostSettings.names.filterMap fun name =>
      (members.lookup name).map (name, ·)).foldlM HostSettings.read ⟨none, none⟩ := by
  rw [← Json.filter_sortMembers hkeys (by decide), ← HostSettings.foldlM_read_eq_filter]
  exact bind_pure_comp _ _

/-- An object is read exactly if what it has under the names of settings stands for settings, and as these;
and objects with the same under these names are read alike, whatever else they hold. -/
theorem ofJson_object_eq_ok_iff (members : List (String × Json))
    (hkeys : (members.map Prod.fst).Nodup) :
    (∀ c, ofJson (.object members) = .ok c ↔
      SeverityGiven (members.lookup "severity") c.severity ∧
        StrictnessGiven (members.lookup "strictKinds") (members.lookup "strict_kinds") c.strictKinds) ∧
    ∀ others : List (String × Json), (others.map Prod.fst).Nodup →
      (∀ name ∈ HostSettings.names, others.lookup name = members.lookup name) →
      ofJson (.object others) = ofJson (.object members) := by
  constructor
  · intro c
    rw [ofJson_object hkeys]
    exact HostSettings.config_foldlM_names_eq_ok_iff (members.lookup ·)
  · intro others hothers hsame
    rw [ofJson_object hkeys, ofJson_object hothers]
    congr 2
    exact List.filterMap_congr fun name hname => by rw [hsame name hname]

/-- A host keeps a name and options of its own among the settings, with a severity of their own there: the
settings are those of the two other members alone. -/
theorem foreign_members_passed_over :
    let settings : List (String × Json) :=
      [("severity", .object [("warn", .null)]), ("strict_kinds", .boolean true)]
    let members : List (String × Json) :=
      [("strict_kinds", .boolean true), ("name", .string "checker"),
        ("options", .object [("severity", .integer 3)]), ("severity", .object [("warn", .null)])]
    (members.map Prod.fst).Nodup ∧ ofJson (.object members) = .ok ⟨.warn, true⟩ ∧
      ofJson (.object settings) = ofJson (.object members) := by
  intro settings members
  have hkeys : (members.map Prod.fst).Nodup := by decide
  obtain ⟨hread, hsame⟩ := ofJson_object_eq_ok_iff members hkeys
  refine ⟨hkeys, (hread ⟨.warn, true⟩).2 ⟨.inr rfl, rfl⟩, hsame settings (by decide) ?_⟩
  exact List.forall_mem_cons.2
    ⟨rfl, List.forall_mem_cons.2 ⟨rfl, List.forall_mem_singleton.2 rfl⟩⟩

end Config

end PathAudit
