import PathAudit.SourceSet

/-! Sets of sources under edits. What a set holds is told from the history of its edits alone: the
latest edit of a name decides its text, and the names stand in the order in which they came to
stay. -/

namespace PathAudit

/-- An edit of a set of sources: a source is added, in the place of the one of its name if there is
one, or the source of a name is removed. -/
inductive Edit
  | insert (s : Source)
  | erase (name : String)
deriving DecidableEq, Repr

namespace Edit

def name : Edit → String
  | insert s => s.name
  | erase name => name

def text? : Edit → Option String
  | insert s => some s.text
  | erase _ => none

/-- The text that a history leaves under a name. The latest edit of the name decides. -/
def lastText (history : List Edit) (name : String) : Option String :=
  (history.reverse.find? (·.name == name)).bind text?

/-- Holds when a name that is present after a history has been so since the edit at place `i`. -/
structure BeganAt (history : List Edit) (name : String) (i : Nat) : Prop where
  lt_length : i < history.length
  absent : lastText (history.take i) name = none
  present : ∀ j, i < j → j ≤ history.length → (lastText (history.take j) name).isSome

variable {history : List Edit} {e : Edit} {name : String} {i : Nat}

theorem lastText_append (history : List Edit) (e : Edit) (name : String) :
    lastText (history ++ [e]) name = if e.name = name then e.text? else lastText history name := by
  unfold lastText
  rw [List.reverse_append, List.reverse_singleton, List.singleton_append, List.find?_cons]
  by_cases h : e.name = name
  · simp [h]
  · simp [h, beq_false_of_ne h]

/-- Where sources were only added, one of the name, if there is any, tells what stands under it. -/
theorem lastText_map_insert (sources : List Source) (name : String) :
    (∃ s ∈ sources, s.name = name ∧ lastText (sources.map .insert) name = some s.text) ∨
      lastText (sources.map .insert) name = none ∧ ∀ s ∈ sources, s.name ≠ name := by
  unfold lastText
  cases hfound : (sources.map insert).reverse.find? (·.name == name) with
  | none =>
    refine .inr ⟨rfl, fun s hs hname => ?_⟩
    exact List.find?_eq_none.1 hfound (.insert s) (by simpa using hs) (beq_iff_eq.2 hname)
  | some e =>
    obtain ⟨s, hs, rfl⟩ : ∃ s ∈ sources, insert s = e := by
      simpa using List.mem_of_find?_eq_some hfound
    exact .inl ⟨s, hs, beq_iff_eq.1 (List.find?_some hfound :), rfl⟩

/-- One more edit lets a presence go on or end, and begins one where there was none. -/
theorem beganAt_append : BeganAt (history ++ [e]) name i ↔
    (lastText (history ++ [e]) name).isSome ∧
      (BeganAt history name i ∨ i = history.length ∧ lastText history name = none) := by
  have htake {j : Nat} (h : j ≤ history.length) : (history ++ [e]).take j = history.take j :=
    List.take_append_of_le_length h
  have hall : (history ++ [e]).take (history.length + 1) = history ++ [e] :=
    List.take_of_length_le (by simp)
  constructor
  · intro h
    have hi : i < history.length + 1 := by simpa using h.lt_length
    refine ⟨hall ▸ h.present _ hi (by simp), ?_⟩
    rcases Nat.lt_succ_iff_lt_or_eq.1 hi with hlt | rfl
    · refine .inl ⟨hlt, htake (Nat.le_of_lt hlt) ▸ h.absent, fun j hij hj => ?_⟩
      exact htake hj ▸ h.present j hij (by simp; omega)
    · exact .inr ⟨rfl, by simpa using h.absent⟩
  · rintro ⟨hlast, h | ⟨rfl, habsent⟩⟩
    · refine ⟨by simp; have := h.lt_length; omega, ?_, fun j hij hj => ?_⟩
      · rw [htake (Nat.le_of_lt h.lt_length)]
        exact h.absent
      · rcases Nat.lt_or_ge history.length j with hj' | hj'
        · obtain rfl : j = history.length + 1 := by simp at hj; omega
          rwa [hall]
        · rw [htake hj']
          exact h.present j hij hj'
    · refine ⟨by simp, by rw [htake (Nat.le_refl _), List.take_length]; exact habsent,
        fun j hij hj => ?_⟩
      obtain rfl : j = history.length + 1 := by simp at hj; omega
      rwa [hall]

end Edit

namespace SourceSet

variable {p : SourceSet} {history edits : List Edit} {e : Edit} {name : String} {s : Source}

def edit (p : SourceSet) : Edit → SourceSet
  | .insert s => p.insert s
  | .erase name => p.erase name

def run (p : SourceSet) (edits : List Edit) : SourceSet :=
  edits.foldl edit p

theorem get?_insert (p : SourceSet) (new : Source) (name : String) :
    (p.insert new).get? name = if new.name = name then some new else p.get? name := by
  by_cases h : new.name = name
  · subst h
    simp
  · rw [if_neg h]
    show (put p.sources new).find? _ = p.sources.find? _
    unfold put
    split
    · induction p.sources with
      | nil => rfl
      | cons s sources ih => grind
    · simp [h]

theorem get?_erase (p : SourceSet) (erased name : String) :
    (p.erase erased).get? name = if erased = name then none else p.get? name := by
  by_cases h : erased = name
  · subst h
    simp
  · rw [if_neg h]
    show (p.sources.filter _).find? _ = p.sources.find? _
    induction p.sources with
    | nil => rfl
    | cons s sources ih => grind

theorem name_ne_of_nodup {sources : List Source} (h : ((s :: sources).map Source.name).Nodup) :
    ∀ t ∈ sources, t.name ≠ s.name := by
  rw [List.map_cons, List.nodup_cons] at h
  exact fun t ht hname => h.1 (hname ▸ List.mem_map_of_mem ht)

theorem put_cons_of_ne {sources : List Source} {new : Source} (h : s.name ≠ new.name) :
    put (s :: sources) new = s :: put sources new := by
  simp only [put, List.map_cons, List.mem_cons, h.symm, false_or, if_neg h]
  split <;> rfl

/-- A source takes the place of the one of its name, of which there is one at most. -/
theorem sources_insert (p : SourceSet) (new : Source) : (p.insert new).sources =
    match p.sources.findIdx? (·.name == new.name) with
    | some i => p.sources.set i new
    | none => p.sources ++ [new] := by
  have hnodup := p.names_nodup
  show put p.sources new = _
  generalize p.sources = sources at hnodup
  induction sources with
  | nil => rfl
  | cons s sources ih =>
    rw [List.findIdx?_cons]
    by_cases hname : s.name = new.name
    · have hrest : sources.map (fun t => if t.name = new.name then new else t) = sources := by
        refine (List.map_congr_left fun t ht => ?_).trans (List.map_id sources)
        exact if_neg (hname ▸ name_ne_of_nodup hnodup t ht)
      simp [put, hname, hrest]
    · rw [put_cons_of_ne hname, ih (List.nodup_cons.1 hnodup).2, beq_false_of_ne hname]
      cases sources.findIdx? (·.name == new.name) <;> rfl

theorem sources_erase (p : SourceSet) (name : String) : (p.erase name).sources =
    match p.sources.findIdx? (·.name == name) with
    | some i => p.sources.eraseIdx i
    | none => p.sources := by
  have hnodup := p.names_nodup
  show p.sources.filter _ = _
  generalize p.sources = sources at hnodup
  induction sources with
  | nil => rfl
  | cons s sources ih =>
    rw [List.findIdx?_cons]
    by_cases hname : s.name = name
    · have hrest : sources.filter (·.name != name) = sources := by
        rw [List.filter_eq_self]
        exact fun t ht => bne_iff_ne.2 (hname ▸ name_ne_of_nodup hnodup t ht)
      simp [hname, hrest]
    · rw [List.filter_cons, bne_iff_ne.2 hname, ih (List.nodup_cons.1 hnodup).2,
        beq_false_of_ne hname]
      cases sources.findIdx? (·.name == name) <;> rfl

theorem mem_names_iff_get? : name ∈ p.names ↔ (p.get? name).isSome := by
  simp [names, get?, List.find?_isSome, List.mem_map]

theorem get?_edit (p : SourceSet) (e : Edit) (name : String) :
    ((p.edit e).get? name).map Source.text =
      if e.name = name then e.text? else (p.get? name).map Source.text := by
  cases e with
  | insert s =>
    rw [edit, get?_insert]
    by_cases h : s.name = name <;> simp [Edit.name, Edit.text?, h]
  | erase erased =>
    rw [edit, get?_erase]
    by_cases h : erased = name <;> simp [Edit.name, Edit.text?, h]

/-- What a set of sources owes to the history of its edits. -/
structure Reflects (p : SourceSet) (history : List Edit) : Prop where
  names_nodup : p.names.Nodup
  /-- A name is looked up by its latest edit. -/
  text_get? : ∀ name, (p.get? name).map Source.text = Edit.lastText history name
  mem_names : ∀ name, name ∈ p.names ↔ ∃ i, Edit.BeganAt history name i
  /-- The names stand in the order in which they came to stay. -/
  ordered : p.names.Pairwise fun a b =>
    ∀ i j, Edit.BeganAt history a i → Edit.BeganAt history b j → i < j
  /-- What a source is found to declare, and what is no token in it, is what its text reads as. -/
  parsed : ∀ s ∈ p.sources, p.get? s.name = some s ∧ (⟨s.outline, s.errors⟩ : Parsed) = Parsed.ofText s.text

theorem Reflects.mem_names_iff (h : p.Reflects history) :
    name ∈ p.names ↔ (Edit.lastText history name).isSome := by
  rw [mem_names_iff_get?, ← h.text_get?, Option.isSome_map]

theorem get?_of_mem {s : Source} (hs : s ∈ p.sources) : p.get? s.name = some s := by
  have hnodup := p.names_nodup
  unfold get?
  generalize p.sources = sources at hs hnodup
  induction sources with
  | nil => exact absurd hs List.not_mem_nil
  | cons t sources ih =>
    rcases List.mem_cons.1 hs with rfl | hs
    · simp
    · rw [List.find?_cons, beq_false_of_ne (name_ne_of_nodup hnodup s hs).symm]
      exact ih hs (List.nodup_cons.1 hnodup).2

/-- The presence of a name that was there before an edit did not begin with it. -/
theorem Reflects.beganAt_of_append (h : p.Reflects history) {i : Nat} (hname : name ∈ p.names) :
    Edit.BeganAt (history ++ [e]) name i → Edit.BeganAt history name i := by
  intro hbegan
  have hlast := h.mem_names_iff.1 hname
  rcases (Edit.beganAt_append.1 hbegan).2 with hbegan | ⟨-, habsent⟩
  · exact hbegan
  · simp [habsent] at hlast

theorem Reflects.edit (h : p.Reflects history) (e : Edit) : (p.edit e).Reflects (history ++ [e]) := by
  have htext (name : String) :
      ((p.edit e).get? name).map Source.text = Edit.lastText (history ++ [e]) name := by
    rw [get?_edit, h.text_get?, Edit.lastText_append]
  refine ⟨(p.edit e).names_nodup, htext, fun name => ?_, ?_, fun s hs => ⟨get?_of_mem hs, rfl⟩⟩
  · have hbefore : (∃ i, Edit.BeganAt history name i) ∨ Edit.lastText history name = none := by
      rw [← h.mem_names, h.mem_names_iff]
      cases Edit.lastText history name <;> simp
    rw [mem_names_iff_get?, ← Option.isSome_map (f := Source.text), htext]
    simp only [Edit.beganAt_append]
    constructor
    · intro hlast
      rcases hbefore with ⟨i, hi⟩ | habsent
      · exact ⟨i, hlast, .inl hi⟩
      · exact ⟨history.length, hlast, .inr ⟨rfl, habsent⟩⟩
    · rintro ⟨_, hlast, -⟩
      exact hlast
  · -- Names that were present keep their order, and a name that was not comes last.
    have hkept {names : List String} (hsub : names.Sublist p.names) :
        names.Pairwise fun a b => ∀ i j, Edit.BeganAt (history ++ [e]) a i →
          Edit.BeganAt (history ++ [e]) b j → i < j := by
      refine (h.ordered.sublist hsub).imp_of_mem fun {a b} ha hb hab i j hi hj => ?_
      exact hab i j (h.beganAt_of_append (hsub.subset ha) hi) (h.beganAt_of_append (hsub.subset hb) hj)
    cases e with
    | erase name =>
      rw [show (p.edit (.erase name)).names = _ from names_erase p name]
      exact hkept List.filter_sublist
    | insert s =>
      rw [show (p.edit (.insert s)).names = _ from names_insert p s]
      by_cases hname : s.name ∈ p.names
      · rw [if_pos hname]
        exact hkept (List.Sublist.refl _)
      · rw [if_neg hname, List.pairwise_append]
        refine ⟨hkept (List.Sublist.refl _), List.pairwise_singleton _ _, ?_⟩
        intro a ha b hb i j hi hj
        obtain rfl := List.mem_singleton.1 hb
        have hi := (h.beganAt_of_append ha hi).lt_length
        rcases (Edit.beganAt_append.1 hj).2 with hj | ⟨rfl, -⟩
        · exact absurd ((h.mem_names _).2 ⟨j, hj⟩) hname
        · exact hi

theorem Reflects.run (h : p.Reflects history) (edits : List Edit) :
    (p.run edits).Reflects (history ++ edits) := by
  induction edits generalizing p history with
  | nil => simpa [SourceSet.run] using h
  | cons e edits ih =>
    rw [List.append_cons]
    exact ih (h.edit e)

theorem reflects_empty : empty.Reflects [] :=
  ⟨List.nodup_nil, fun _ => rfl, fun _ => ⟨nofun, fun ⟨_, h⟩ => absurd h.lt_length (Nat.not_lt_zero _)⟩,
    List.Pairwise.nil, nofun⟩

/-- Sources with new names come after those that are there, in their order. -/
theorem sources_run_inserts {added : List Source}
    (h : ((p.sources ++ added).map Source.name).Nodup) :
    (p.run (added.map .insert)).sources = p.sources ++ added := by
  induction added generalizing p with
  | nil => exact (List.append_nil _).symm
  | cons s added ih =>
    have hnew : s.name ∉ p.sources.map Source.name := by
      rw [List.map_append, List.nodup_append] at h
      intro hs
      exact h.2.2 _ hs _ List.mem_cons_self rfl
    have hsources : (p.insert s).sources = p.sources ++ [s] := if_neg hnew
    rw [List.append_cons, ← hsources] at h ⊢
    exact ih h

/-- The set of some added sources has their names, and under each name the text of one of them. -/
theorem mem_run_inserts (added : List Source) {n : String} :
    (n ∈ (empty.run (added.map .insert)).names ↔ ∃ s ∈ added, s.name = n) ∧
      ∀ s ∈ added, s.name = n → ∃ t ∈ added, t.name = n ∧
        t ∈ (empty.run (added.map .insert)).sources := by
  have hreflects : (empty.run (added.map .insert)).Reflects (added.map .insert) :=
    reflects_empty.run _
  have htext := hreflects.text_get? n
  rw [hreflects.mem_names_iff]
  rcases Edit.lastText_map_insert added n with ⟨t, ht, hn, hlast⟩ | ⟨hlast, hnone⟩
  · refine ⟨by simpa [hlast] using ⟨t, ht, hn⟩, fun _ _ _ => ⟨t, ht, hn, ?_⟩⟩
    obtain ⟨u, hu, hut⟩ := Option.map_eq_some_iff.1 (htext.trans hlast)
    have hun : u.name = n := beq_iff_eq.1 (List.find?_some hu :)
    obtain rfl : u = t := by
      cases u
      cases t
      simp_all
    exact List.mem_of_find?_eq_some hu
  · refine ⟨by simpa [hlast] using hnone, fun s hs hn => absurd hn (hnone s hs)⟩

end SourceSet

def Disk.source (disk : Disk) (path : String) : Except DiskError Source :=
  (disk.text path).map (⟨path, ·⟩)

namespace SourceSet

variable {disk : Disk} {paths : List String}

theorem mapM_source_cons (path : String) (paths : List String) :
    (path :: paths).mapM disk.source = match disk.text path with
      | .error e => .error e
      | .ok text => (paths.mapM disk.source).map (⟨path, text⟩ :: ·) := by
  rw [List.mapM_cons, Disk.source]
  cases disk.text path with
  | error e => rfl
  | ok text => cases paths.mapM disk.source <;> rfl

theorem mapM_source_spec (disk : Disk) (paths : List String) :
    match paths.mapM disk.source with
    | .error e => ∃ read path rest, paths = read ++ path :: rest ∧
        (∀ q ∈ read, ∃ text, disk.text q = .ok text) ∧ disk.text path = .error e
    | .ok added => added.map Source.name = paths ∧ ∀ s ∈ added, disk.text s.name = .ok s.text := by
  induction paths with
  | nil => exact ⟨rfl, nofun⟩
  | cons path paths ih =>
    rw [mapM_source_cons]
    cases htext : disk.text path with
    | error e => exact ⟨[], path, paths, rfl, nofun, htext⟩
    | ok text =>
      cases hrest : paths.mapM disk.source with
      | error e =>
        rw [hrest] at ih
        obtain ⟨read, bad, rest, rfl, hread, hbad⟩ := ih
        exact ⟨path :: read, bad, rest, rfl, List.forall_mem_cons.2 ⟨⟨text, htext⟩, hread⟩, hbad⟩
      | ok added =>
        rw [hrest] at ih
        obtain ⟨hnames, htexts⟩ := ih
        exact ⟨by rw [List.map_cons, hnames], List.forall_mem_cons.2 ⟨htext, htexts⟩⟩

theorem answer_insertFiles (p : SourceSet) (paths : List String) :
    (p.insertFiles paths).answer disk =
      (paths.mapM disk.source).map fun added => p.run (added.map .insert) := by
  induction paths generalizing p with
  | nil => rfl
  | cons path paths ih =>
    rw [mapM_source_cons, insertFiles, Query.answer_bind, Query.answer_textAt]
    cases disk.text path with
    | error e => rfl
    | ok text =>
      show (SourceSet.insertFiles _ paths).answer disk = _
      rw [ih]
      cases paths.mapM disk.source <;> rfl

theorem answer_ofFiles (paths : List String) : (ofFiles paths).answer disk =
    (paths.mapM disk.source).map fun added => empty.run (added.map .insert) :=
  answer_insertFiles empty paths

/-- After any edits of the empty set, or of the files at some paths, the names are distinct, a name
is looked up by its latest edit, the names stand in the order in which they came to stay, and what
is found in a source is what its text reads as. The files are added one after the other under their
paths, and there are none if one cannot be read: the first such tells why. -/
theorem run_reflects (edits : List Edit) (paths : List String) (disk : Disk) :
    (empty.run edits).Reflects edits ∧
      match (ofFiles paths).answer disk with
      | .error e => ∃ read path rest, paths = read ++ path :: rest ∧
          (∀ q ∈ read, ∃ text, disk.text q = .ok text) ∧ disk.text path = .error e
      | .ok p => ∃ added : List Source, added.map Source.name = paths ∧
          (∀ s ∈ added, disk.text s.name = .ok s.text) ∧ p = empty.run (added.map .insert) ∧
          (p.run edits).Reflects (added.map .insert ++ edits) := by
  refine ⟨reflects_empty.run edits, ?_⟩
  have hread := mapM_source_spec disk paths
  rw [answer_ofFiles]
  cases hadded : paths.mapM disk.source with
  | error e =>
    rw [hadded] at hread
    exact hread
  | ok added =>
    rw [hadded] at hread
    obtain ⟨hnames, htexts⟩ := hread
    exact ⟨added, hnames, htexts, rfl, (reflects_empty.run _).run edits⟩

end SourceSet

end PathAudit
