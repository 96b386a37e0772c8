import Apidoc.Proofs.Reading.Writes

namespace Apidoc

variable {models : Models} {s : ResourceSet} {chain : VerbChain} {locators : List Visit}
  {u w : Visit} {path path' : String} {verb : Verb} {o : Operation} {d : Document}

/-- Behind a locator that is registered under a verb, a method that has none is registered under it
exactly when the chain finds a verb for the locator itself. -/
theorem inherits_verb_iff (h : (d.read models s chain).2 = .ok ())
    (ht : IsTrail s (locators ++ [u, w])) (hp : trailPath? (locators ++ [u, w]) = some path)
    (hu : WritesThrough models s chain locators u path' verb o)
    (hw : (chain.resolve w.method).verb = none) :
    (∃ o, WritesThrough models s chain (locators ++ [u]) w path verb o) ↔
      (chain.resolve u.method).verb.isSome := by
  have hsplit : locators ++ [u, w] = locators ++ [u] ++ [w] := by simp
  rw [hsplit] at ht hp
  obtain ⟨_, ⟨context, hcontext, hverb, _⟩, _⟩ := hu
  have hlocator : locatorVerb? chain (locators ++ [u]) = (chain.resolve u.method).verb := by
    simp [locatorVerb?]
  rw [exists_writesThrough_iff h ht hp, hw, hlocator, Option.none_or]
  cases hown : (chain.resolve u.method).verb with
  | none => simp
  | some own =>
    rw [hown, Option.some_or] at hverb
    simp [hverb]

section Shelters

def animalLocator : Method where
  name := "animals"
  returnType := ⟨"Animals", []⟩
  declaration := { operation := some {}, path := some "/animals", verb := some .get }

def photoLocator : Method where
  name := "photos"
  returnType := ⟨"Photos", []⟩
  declaration := { operation := some {}, path := some "/photos" }

def photoList : Method where
  name := "list"
  declaration := { operation := some {}, path := some "/all" }

def shelterRoot : Resource where
  name := "Shelters"
  api := some {}
  path := some "/shelters"
  methods := [animalLocator]

def animalResource : Resource where
  name := "Animals"
  api := some {}
  methods := [photoLocator]

def photoResource : Resource where
  name := "Photos"
  api := some {}
  methods := [photoList]

/-- Two locators, of which only the first has a verb. -/
def shelterSet : ResourceSet :=
  ((({} : ResourceSet).addRoot shelterRoot).addSubResource animalResource).addSubResource
    photoResource

theorem read_shelterSet : (({} : Document).read {} shelterSet .standard).2 = .ok () := by
  cbv

theorem shelterSet_trail : IsTrail shelterSet
    [⟨shelterRoot, animalLocator⟩, ⟨animalResource, photoLocator⟩, ⟨photoResource, photoList⟩] where
  start v hv := by
    cases hv
    exact ⟨List.mem_singleton_self _, {}, rfl, rfl⟩
  documented v hv := by
    simp only [List.mem_cons, List.not_mem_nil, or_false] at hv
    rcases hv with rfl | rfl | rfl <;> exact ⟨List.mem_singleton_self _, {}, rfl, rfl⟩
  linked := .cons_cons rfl (.cons_cons rfl (.singleton _))
  distinct := by decide

theorem shelterSet_path : trailPath?
    [⟨shelterRoot, animalLocator⟩, ⟨animalResource, photoLocator⟩, ⟨photoResource, photoList⟩] =
      some "/shelters/animals/photos/all" := by
  cbv

theorem shelterSet_writes : ∃ o, WritesThrough {} shelterSet .standard
    [⟨shelterRoot, animalLocator⟩] ⟨animalResource, photoLocator⟩ "/shelters/animals/photos" .get
    o := by
  have ht : IsTrail shelterSet
      ([⟨shelterRoot, animalLocator⟩] ++ [⟨animalResource, photoLocator⟩]) :=
    @IsTrail.dropLast _ [⟨shelterRoot, animalLocator⟩] _ _ shelterSet_trail
  have hp : trailPath? ([⟨shelterRoot, animalLocator⟩] ++ [⟨animalResource, photoLocator⟩]) =
      some "/shelters/animals/photos" := by cbv
  exact (exists_writesThrough_iff read_shelterSet ht hp).2 (by cbv)

/-- The second locator is registered under the verb of the first one, but hands down no verb. -/
theorem shelterSet_inherits_none :
    let last : Visit := ⟨photoResource, photoList⟩
    (({} : Document).read {} shelterSet .standard).2 = .ok () ∧
      (VerbChain.standard.resolve last.method).verb = none ∧
      ∃ o, WritesThrough {} shelterSet .standard [⟨shelterRoot, animalLocator⟩]
          ⟨animalResource, photoLocator⟩ "/shelters/animals/photos" .get o ∧
        ((∃ o, WritesThrough {} shelterSet .standard
            [⟨shelterRoot, animalLocator⟩, ⟨animalResource, photoLocator⟩] last
            "/shelters/animals/photos/all" .get o) ↔
          (VerbChain.standard.resolve photoLocator).verb.isSome) := by
  intro last
  obtain ⟨o, ho⟩ := shelterSet_writes
  have hw : (VerbChain.standard.resolve last.method).verb = none := by cbv
  exact ⟨read_shelterSet, hw, o, ho,
    inherits_verb_iff read_shelterSet shelterSet_trail shelterSet_path ho hw⟩

theorem shelterSet_verb_lost :
    (({} : Document).read {} shelterSet .standard).2 = .ok () ∧
      ¬∀ (locators : List Visit) (u w : Visit) (path path' : String) (verb : Verb)
        (o : Operation),
        IsTrail shelterSet (locators ++ [u, w]) → trailPath? (locators ++ [u, w]) = some path →
        WritesThrough {} shelterSet .standard locators u path' verb o →
        (VerbChain.standard.resolve w.method).verb = none →
        ((({} : Document).read {} shelterSet .standard).1.operation? path verb).isSome := by
  refine ⟨read_shelterSet, fun h => ?_⟩
  obtain ⟨o, ho⟩ := shelterSet_writes
  have hw : (VerbChain.standard.resolve photoList).verb = none := by cbv
  have hslot := h [⟨shelterRoot, animalLocator⟩] ⟨animalResource, photoLocator⟩
    ⟨photoResource, photoList⟩ _ _ _ o shelterSet_trail shelterSet_path ho hw
  have hnone : ((({} : Document).read {} shelterSet .standard).1.operation?
      "/shelters/animals/photos/all" .get).isSome = false := by cbv
  rw [hnone] at hslot
  cases hslot

end Shelters

end Apidoc
