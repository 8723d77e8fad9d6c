import PathAudit.Proofs.Checker.Findings
import PathAudit.Proofs.Sources.History

/-! Checking a set of sources at once, and asking a service about its names one by one. The one goes
through the sources and the other looks each up by its name; as no two sources share a name, both ask
the disk the same and find the same. -/

namespace PathAudit

namespace Query

variable {α β : Type}

instance : LawfulMonad Query := LawfulMonad.mk' Query
  (fun q => by
    induction q with
    | done a => rfl
    | entry path next ih => exact congrArg (entry path) (funext ih)
    | text path next ih => exact congrArg (text path) (funext ih)
    | workingDirectory next ih => exact congrArg workingDirectory (funext ih))
  (fun _ _ => rfl)
  (fun q _ _ => by
    induction q with
    | done a => rfl
    | entry path next ih => exact congrArg (entry path) (funext ih)
    | text path next ih => exact congrArg (text path) (funext ih)
    | workingDirectory next ih => exact congrArg workingDirectory (funext ih))

@[simp] theorem answer_map (disk : Disk) (f : α → β) (q : Query α) :
    answer disk (f <$> q) = f (answer disk q) := by
  rw [← bind_pure_comp, answer_bind, answer_pure]

@[simp] theorem answer_mapM (disk : Disk) (f : α → Query β) (l : List α) :
    answer disk (l.mapM f) = l.map fun a => answer disk (f a) := by
  induction l with
  | nil => rfl
  | cons a l ih => rw [List.mapM_cons, answer_bind, answer_bind, ih, answer_pure, List.map_cons]

end Query

namespace Checker

theorem findingsInEach_eq_mapM (c : Checker) (sources : List Source) :
    c.findingsInEach sources = List.flatten <$> sources.mapM c.findingsIn := by
  induction sources with
  | nil => rfl
  | cons s sources ih => simp [findingsInEach, ih]

end Checker

namespace Service

/-- Asked about the name of a source, the service with path checks around a set checks that source. -/
theorem semantic_eq_findingsIn {p : SourceSet} {s : Source} (c : Checker) (hs : s ∈ p.sources) :
    ((ofSources p).withPathChecks c).semantic s.name = c.findingsIn s := by
  have hfindings : (ofSources p).pathFindings c s.name = c.findingsIn s := by
    simp [pathFindings, ofSources, SourceSet.get?_of_mem hs]
  show (pure [] >>= fun own => (ofSources p).pathFindings c s.name >>= fun found =>
    pure (own ++ found)) = _
  simp [hfindings]

theorem mapM_semantic_names {p : SourceSet} {sources : List Source} (c : Checker)
    (hsources : sources ⊆ p.sources) :
    (sources.map Source.name).mapM ((ofSources p).withPathChecks c).semantic =
      sources.mapM c.findingsIn := by
  induction sources with
  | nil => rfl
  | cons s sources ih =>
    obtain ⟨hs, hrest⟩ := List.cons_subset.1 hsources
    rw [List.map_cons, List.mapM_cons, List.mapM_cons, semantic_eq_findingsIn c hs, ih hrest]

/-- After any edits of a set of sources, checking it at once is asking the service with path checks around
it about each of its names in their order: the disk is asked the same, and the findings are the same. -/
theorem findings_together_eq_by_name (p : SourceSet) (edits : List Edit) (c : Checker) :
    let now := p.run edits
    let service := (ofSources now).withPathChecks c
    c.findingsInAll now = List.flatten <$> service.names.mapM service.semantic ∧
    ∀ disk, (c.findingsInAll now).answer disk =
      service.names.flatMap fun name => (service.semantic name).answer disk := by
  intro now service
  have htogether : c.findingsInAll now = List.flatten <$> service.names.mapM service.semantic := by
    rw [show service.names = now.sources.map Source.name from rfl,
      mapM_semantic_names c (List.Subset.refl _)]
    exact c.findingsInEach_eq_mapM now.sources
  refine ⟨htogether, fun disk => ?_⟩
  rw [htogether, Query.answer_map, Query.answer_mapM, List.flatMap_def]

end Service

end PathAudit
