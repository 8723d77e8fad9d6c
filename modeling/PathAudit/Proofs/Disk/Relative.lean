import PathAudit.Disk.Tree
import PathAudit.Proofs.Disk.Located
import PathAudit.Proofs.Location.Way

/-! Relative paths in a tree, seen from a working directory that is written without links. A folded
relative path is looked up as the absolute path to where it leads from there, with one exception: the
empty path, which is the folded path to the working directory itself, names nothing. -/

namespace PathAudit

namespace Node

variable {n : Node} {names more : List String} {entries : List (String × Node)}

theorem at?_append (n : Node) (names more : List String) :
    n.at? (names ++ more) = (n.at? names).bind (·.at? more) := by
  induction names generalizing n with
  | nil => rfl
  | cons name names ih =>
    rw [List.cons_append, at?, at?, Option.bind_assoc]
    exact congrArg _ (funext ih)

theorem exists_folder_of_at? (h : n.at? more = some (.folder entries)) : ∃ es, n = .folder es := by
  cases n with
  | folder es => exact ⟨es, rfl⟩
  | _ => cases more <;> simp [at?, child?] at h

end Node

namespace Tree

variable {tree : Node} {place names rest : List String} {links : Nat} {l : Location}
  {entries : List (String × Node)}

/-- Holds of the names of folders, each in the one before it and none reached by a link, which can
all be asked for. -/
structure Physical (tree : Node) (names : List String) : Prop where
  isName : ∀ n ∈ names, Step.IsName n
  short : ∀ n ∈ names, n.utf8ByteSize ≤ longestName
  nulFree : ∀ n ∈ names, '\x00' ∉ n.toList
  folder : ∃ entries, tree.at? names = some (.folder entries)

theorem Physical.of_append (h : Physical tree (names ++ rest)) : Physical tree names where
  isName n hn := h.isName n (List.mem_append_left _ hn)
  short n hn := h.short n (List.mem_append_left _ hn)
  nulFree n hn := h.nulFree n (List.mem_append_left _ hn)
  folder := by
    obtain ⟨entries, hentries⟩ := h.folder
    rw [Node.at?_append, Option.bind_eq_some_iff] at hentries
    obtain ⟨n, hn, hbelow⟩ := hentries
    obtain ⟨es, rfl⟩ := Node.exists_folder_of_at? hbelow
    exact ⟨es, hn⟩

theorem Physical.take (h : Physical tree names) (k : Nat) : Physical tree (names.take k) := by
  rw [← List.take_append_drop k names] at h
  exact h.of_append

theorem walk_names (h : Physical tree (place ++ names)) :
    walk tree links place (names ++ rest) = walk tree links (place ++ names) rest := by
  induction names generalizing place with
  | nil => rw [List.nil_append, List.append_nil]
  | cons n names ih =>
    have hn := List.mem_append_right place (List.mem_cons_self (a := n) (l := names))
    obtain ⟨-, -, hdot, hparent⟩ := Step.isName_iff.1 (h.isName n hn)
    have hnext : Physical tree ((place ++ [n]) ++ names) := by simpa using h
    obtain ⟨_, hplace⟩ := h.of_append.folder
    obtain ⟨_, hentry⟩ := hnext.of_append.folder
    rw [List.cons_append, walk, hplace]
    simp only [hdot, hparent, Nat.not_lt.2 (h.short n hn), if_false, hentry]
    rw [ih hnext, List.append_assoc, List.singleton_append]

/-- Parts `..` are walked up the names of folders. -/
theorem walk_parents (h : Physical tree place) (climbs : Nat) :
    walk tree links place (List.replicate climbs ".." ++ rest) =
      walk tree links (place.take (place.length - climbs)) rest := by
  induction climbs generalizing place with
  | zero => simp
  | succ climbs ih =>
    obtain ⟨_, hplace⟩ := h.folder
    have hup : place.dropLast.take (place.dropLast.length - climbs) =
        place.take (place.length - (climbs + 1)) := by
      rw [List.dropLast_eq_take, List.take_take, List.length_take]
      congr 1
      omega
    rw [List.replicate_succ, List.cons_append, walk, hplace]
    simp only [show ".." ≠ "." by decide, if_false, if_true]
    rw [ih (List.dropLast_eq_take ▸ h.take _), hup]

/-- A walk goes through the parts of a location's text, and through a part `.` for the text `/`. -/
theorem parts_toPath (h : l.Proper) (hne : l ≠ .top) : parts l.toPath = Path.parts l.toPath := by
  rw [parts, Path.parts_eq]
  apply if_neg
  rintro ⟨hlength, hlast⟩
  by_cases hpieces : List.replicate l.ups ['.', '.'] ++ l.names.map String.toList = []
  · obtain ⟨absolute, ups, names, hups⟩ := l
    obtain ⟨rfl, rfl⟩ : ups = 0 ∧ names = [] := by simpa using hpieces
    cases absolute with
    | true => exact hne rfl
    | false => simp [Location.toPath] at hlength
  · rw [Location.splitOn_toPath h hpieces, List.getLast?_append_of_ne_nil _ hpieces] at hlast
    rcases List.mem_append.1 (List.mem_of_getLast? hlast) with hup | hname
    · exact absurd (List.eq_of_mem_replicate hup) (by decide)
    · obtain ⟨n, hn, hempty⟩ := List.mem_map.1 hname
      exact (Step.isName_iff.1 (h n hn)).2.1 (String.toList_eq_nil_iff.1 hempty)

theorem walk_parts_toPath (h : l.Proper) (hplace : tree.at? place = some (.folder entries)) :
    walk tree links place (parts l.toPath) =
      walk tree links place (List.replicate l.ups ".." ++ l.names) := by
  by_cases htop : l = .top
  · rw [htop, show parts Location.top.toPath = ["."] by decide +kernel, walk, hplace]
    rfl
  · rw [parts_toPath h htop, Location.parts_toPath h]

theorem vet_eq_ok {path : String} (hnul : '\x00' ∉ path.toList) (hne : path ≠ "")
    (hshort : path.utf8ByteSize ≤ longestPath) : vet path = .ok () := by
  simp [vet, hnul, hne, hshort]

theorem vet_of_nul {path : String} (hnul : '\x00' ∈ path.toList) : vet path = .error .nulInName := by
  simp [vet, hnul]

/-- Where the walk along the text of a location begins, and what it goes through. -/
theorem place_toPath (hproper : l.Proper) (hnul : '\x00' ∉ l.toPath.toList) (hne : l.toPath ≠ "")
    (hshort : l.toPath.utf8ByteSize ≤ longestPath) :
    Tree.place tree (some names) l.toPath =
      walk tree mostLinks (if l.absolute then [] else names) (parts l.toPath) := by
  rw [Tree.place, vet_eq_ok hnul hne hshort, Location.isAbsolute_toPath hproper]
  show (if l.absolute then _ else _) = _
  split <;> rfl

/-- A relative path is looked up as the absolute path to where it leads from the working directory. -/
theorem place_relative (hdir : Physical tree names) (hproper : l.Proper) (hrel : ¬l.absolute)
    (hne : l.toPath ≠ "") (hshort : l.toPath.utf8ByteSize ≤ longestPath)
    (hlong : ((Location.ofNames names).resolve l.toPath).toPath.utf8ByteSize ≤ longestPath) :
    Tree.place tree (some names) l.toPath =
      Tree.place tree (some names) ((Location.ofNames names).resolve l.toPath).toPath := by
  have hbase : (Location.ofNames names).Proper := hdir.isName
  have hfull := hbase.resolve l.toPath
  rw [Location.resolve_toPath_of_relative hproper hrel names] at hlong hfull ⊢
  have habs : (Location.ofNames (names.take (names.length - l.ups) ++ l.names)).toPath ≠ "" :=
    Path.ne_empty_of_isAbsolute (Location.isAbsolute_toPath hfull)
  have hnul : '\x00' ∈ (Location.ofNames (names.take (names.length - l.ups) ++ l.names)).toPath.toList ↔
      '\x00' ∈ l.toPath.toList := by
    rw [Location.mem_toPath_iff (by decide) (by decide),
      Location.mem_toPath_iff (by decide) (by decide)]
    constructor
    · rintro ⟨n, hn, hmem⟩
      rcases List.mem_append.1 hn with hup | hdown
      · exact absurd hmem (hdir.nulFree n (List.mem_of_mem_take hup))
      · exact ⟨n, hdown, hmem⟩
    · rintro ⟨n, hn, hmem⟩
      exact ⟨n, List.mem_append_right _ hn, hmem⟩
  by_cases h : '\x00' ∈ l.toPath.toList
  · rw [Tree.place, vet_of_nul h, Tree.place, vet_of_nul (hnul.2 h)]
    rfl
  · obtain ⟨_, hfolder⟩ := hdir.folder
    obtain ⟨_, hroot⟩ : ∃ entries, tree.at? [] = some (.folder entries) := (hdir.take 0).folder
    have hstart : Physical tree ([] ++ names.take (names.length - l.ups)) := hdir.take _
    rw [place_toPath hproper h hne hshort, place_toPath hfull (hnul.not.2 h) habs hlong, if_neg hrel,
      if_pos (by rfl), walk_parts_toPath hproper hfolder, walk_parts_toPath hfull hroot,
      walk_parents hdir]
    exact (walk_names hstart).symm

/-- A tree has the same entry at a relative path and at the absolute path to where it leads. -/
theorem entry_relative (hdir : Physical tree names) (hproper : l.Proper) (hrel : ¬l.absolute)
    (hne : l.toPath ≠ "") (hshort : l.toPath.utf8ByteSize ≤ longestPath)
    (hlong : ((Location.ofNames names).resolve l.toPath).toPath.utf8ByteSize ≤ longestPath) :
    (disk tree (some names)).entry l.toPath =
      (disk tree (some names)).entry ((Location.ofNames names).resolve l.toPath).toPath := by
  simp only [disk, entry, place_relative hdir hproper hrel hne hshort hlong]

theorem entry_empty (tree : Node) (directory : Option (List String)) :
    (disk tree directory).entry "" = none := rfl

theorem entry_directory (hdir : Physical tree names)
    (hshort : (Location.ofNames names).toPath.utf8ByteSize ≤ longestPath) :
    (disk tree (some names)).entry (Location.ofNames names).toPath = some .folder := by
  have hproper : (Location.ofNames names).Proper := hdir.isName
  have habs : (Location.ofNames names).toPath ≠ "" :=
    Path.ne_empty_of_isAbsolute (Location.isAbsolute_toPath hproper)
  have hnul : '\x00' ∉ (Location.ofNames names).toPath.toList := by
    rw [Location.mem_toPath_iff (by decide) (by decide)]
    rintro ⟨n, hn, hmem⟩
    exact hdir.nulFree n hn hmem
  obtain ⟨_, hroot⟩ : ∃ entries, tree.at? [] = some (.folder entries) := (hdir.take 0).folder
  have hwalk : walk tree mostLinks [] (names ++ []) = walk tree mostLinks names [] :=
    walk_names (show Physical tree ([] ++ names) from hdir)
  have hplace : Tree.place tree (some names) (Location.ofNames names).toPath = .ok names := by
    rw [place_toPath hproper hnul habs hshort, if_pos (by rfl), walk_parts_toPath hproper hroot]
    rw [List.append_nil, walk] at hwalk
    exact hwalk
  obtain ⟨entries, hfolder⟩ := hdir.folder
  have hentry : entry tree (some names) (Location.ofNames names).toPath = .ok (.folder entries) := by
    simp only [entry, hplace, bind, Except.bind, hfolder]
  show (entry tree (some names) (Location.ofNames names).toPath).toOption.bind kind? = _
  rw [hentry]
  rfl

end Tree

end PathAudit
