import Apidoc.Proofs.Path.Joined
import Apidoc.Proofs.Reading.Paths
import Apidoc.Proofs.Reading.Patterns

namespace Apidoc

/-- The paths that a visit declares: that of its resource, then its own. -/
def Visit.fragments (v : Visit) : List String :=
  v.resource.path.toList ++ v.method.path?.toList

def AllTidy (visits : List Visit) : Prop :=
  ∀ v ∈ visits, ∀ f ∈ v.fragments, Path.IsTidy f

variable {models : Models} {s : ResourceSet} {chain : VerbChain} {locators visits : List Visit}
  {v last : Visit} {path : String} {verb : Verb} {o : Operation}

theorem AllTidy.resource (h : AllTidy visits) (hv : v ∈ visits) :
    Path.IsTidy (v.resource.path.getD "") := by
  apply Path.isTidy_getD
  intro f hf
  exact h v hv f (List.mem_append_left _ (Option.mem_toList.2 hf))

theorem AllTidy.method (h : AllTidy visits) (hv : v ∈ visits) :
    Path.IsTidy (v.method.path?.getD "") := by
  apply Path.isTidy_getD
  intro f hf
  exact h v hv f (List.mem_append_right _ (Option.mem_toList.2 hf))

theorem AllTidy.isText (h : AllTidy visits) :
    Path.IsText (Path.joined (visits.flatMap (·.fragments))).toList := by
  apply Path.isText_joined
  intro f hf
  obtain ⟨v, hv, hf⟩ := List.mem_flatMap.1 hf
  exact h v hv f hf

/-- One more visit joins its fragments to the text that the path before it spells. -/
theorem Visit.path?_joined {inherited : String} (h : v.path? inherited = some path)
    (hv : AllTidy (visits ++ [v])) (hinherited : Path.Spells inherited.toList
      (Path.templates (Path.joined (visits.flatMap (·.fragments))).toList).1) :
    path.toList =
      '/' :: (Path.templates (Path.joined ((visits ++ [v]).flatMap (·.fragments))).toList).1 := by
  have hbefore : AllTidy visits := fun u hu => hv u (List.mem_append_left _ hu)
  have hmem : v ∈ visits ++ [v] := by simp
  obtain ⟨composed, hcomposed, rfl⟩ := Option.map_eq_some_iff.1 h
  have hpath := Path.extract_compose_joined hinherited hbefore.isText (hv.resource hmem)
    (hv.method hmem) hcomposed
  rw [hpath, List.flatMap_append, List.flatMap_singleton, fragments, Path.toList_joined_append]

theorem spells_of_trailPath? (h : trailPath? visits = some path) (hv : AllTidy visits) :
    Path.Spells path.toList
      (Path.templates (Path.joined (visits.flatMap (·.fragments))).toList).1 := by
  induction visits using List.reverseRecOn generalizing path with
  | nil =>
    cases h
    have hnil : (Path.templates []).1 = [] := by simp [Path.templates]
    change Path.Spells [] (Path.templates []).1
    rw [hnil]
    exact Path.spells_self Path.bare_nil
  | append_singleton visits v ih =>
    rw [trailPath?_append_singleton] at h
    obtain ⟨inherited, hinherited, hpath⟩ := Option.bind_eq_some_iff.1 h
    have hspells := ih hinherited fun u hu => hv u (List.mem_append_left _ hu)
    rw [Visit.path?_joined hpath hv hspells]
    exact Path.spells_slash hv.isText.bare.templates

/-- Where all the fragments along a trail are tidy, the path that an operation is registered at is
that of the fragments joined first and rewritten once. -/
theorem WritesThrough.path_joined (hw : WritesThrough models s chain locators last path verb o)
    (ht : AllTidy (locators ++ [last])) :
    path = (Path.extract ("/" ++
      Path.joined ((locators ++ [last]).flatMap (·.fragments)))).1 := by
  have htrail := hw.trailPath?
  rw [trailPath?_append_singleton] at htrail
  obtain ⟨inherited, hinherited, hpath⟩ := Option.bind_eq_some_iff.1 htrail
  have hspells := spells_of_trailPath? hinherited fun u hu => ht u (List.mem_append_left _ hu)
  have hjoined := Visit.path?_joined hpath ht hspells
  rw [← String.toList_inj, hjoined, Path.extract, String.toList_ofList, String.toList_append]
  have hslash : ("/" : String).toList = ['/'] := rfl
  rw [hslash, List.singleton_append, Path.templates_char (by decide)]

theorem photoSet_tidy : AllTidy ([petVisit] ++ [namedPhotoVisit]) := by
  intro v hv f hf
  rcases List.mem_pair.1 hv with rfl | rfl
  · rcases List.mem_pair.1 hf with rfl | rfl
    · exact ⟨Path.isTemplated_iff.1 (by cbv), by decide⟩
    · exact ⟨Path.isTemplated_iff.1 (by cbv), by decide⟩
  · cases List.mem_singleton.1 hf
    exact ⟨Path.isTemplated_iff.1 (by cbv), by decide⟩

theorem photoSet_path_joined : ∃ o, WritesThrough {} photoSet .standard [petVisit] namedPhotoVisit
    "/pets/{id}/photos/{name}" .get o ∧ AllTidy ([petVisit] ++ [namedPhotoVisit]) ∧
      "/pets/{id}/photos/{name}" = (Path.extract ("/" ++
        Path.joined (([petVisit] ++ [namedPhotoVisit]).flatMap (·.fragments)))).1 := by
  obtain ⟨o, ho, _⟩ := photoSet_writes
  exact ⟨o, ho, photoSet_tidy, ho.path_joined photoSet_tidy⟩

end Apidoc
