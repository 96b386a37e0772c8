import Apidoc.Proofs.Document.Growth
import Apidoc.Proofs.Reading.Trail

namespace Apidoc

variable {models : Models} {s : ResourceSet} {chain : VerbChain} {context : Context}
  {locators : List Visit} {last : Visit} {path : String} {verb : Verb} {o : Operation}

/-- In a context, a method registers its operation at its path, under its own verb or under the one
that stands in for it. -/
structure Visit.Registers (models : Models) (s : ResourceSet) (chain : VerbChain)
    (context : Context) (v : Visit) (path : String) (verb : Verb) (o : Operation) : Prop where
  verb : (chain.resolve v.method).verb.or context.verb = some verb
  built : ∃ route built, route? context v.resource v.method = some (some route) ∧
    (buildOperation models s v.method).result = .ok (some built) ∧ path = route.path ∧
    o = (built.inContext context route).registered v.resource context route
      (chain.resolve v.method).verb

/-- A reading writes an operation through a trail when the method at the end of the trail registers
it with what the locators hand down. -/
structure WritesThrough (models : Models) (s : ResourceSet) (chain : VerbChain)
    (locators : List Visit) (last : Visit) (path : String) (verb : Verb) (o : Operation) :
    Prop where
  trail : IsTrail s (locators ++ [last])
  registers : ∃ context, trailContext? models s chain locators = some context ∧
    last.Registers models s chain context path verb o
  written : .edit (.operation path verb o) ∈ (readSet models s chain).notes

/-- Every operation that a reading writes, it writes through a trail. -/
theorem exists_writesThrough
    (h : .edit (.operation path verb o) ∈ (readSet models s chain).notes) :
    ∃ locators last, WritesThrough models s chain locators last path verb o := by
  rcases fromTrail_of_mem_readSet h with
    ⟨t, ht⟩ | hd | ⟨w, hw⟩ | ⟨locators, openNames, v, context, route, hends, hcontext, hvisit⟩
  · cases ht
  · cases hd
  · cases hw
  · rcases hvisit.origin with hbuild | ⟨built, hbuilt, hregister⟩
    · exact (operation_not_mem_buildVisible hbuild).elim
    · obtain ⟨rfl, hverb, rfl⟩ := operation_mem_registerRoute.1 hregister
      obtain ⟨hdoc, _⟩ := (route?_eq_some_iff hvisit.mem).1 ⟨route, hvisit.routed, rfl⟩
      have hbuilt' := (buildOperation_result_iff hvisit.routed).2 hbuilt
      exact ⟨locators, v, hends.trail _ hdoc,
        ⟨context, hcontext, hverb, route, built, hvisit.routed, hbuilt', rfl, rfl⟩, h⟩

/-- A reading, whether it fails or not, leaves a document that the given one grows to. A slot is
left alone unless an operation is written in it through a trail. -/
theorem Document.read_grows (d : Document) :
    let d' := (d.read models s chain).1
    d.GrowsTo d' ∧ ∀ path verb, d'.operation? path verb = d.operation? path verb ∨
      ∃ locators last o, WritesThrough models s chain locators last path verb o ∧
        d'.operation? path verb = some o := by
  intro d'
  have hgrows : d.GrowsTo d' := grows_applyAll
  refine ⟨hgrows, fun path verb => ?_⟩
  cases ho : d'.operation? path verb with
  | none =>
    have hslot := hgrows.slots path verb
    rw [ho] at hslot
    exact .inl (Option.not_isSome_iff_eq_none.1 fun h => nomatch hslot h).symm
  | some o =>
    rcases operation?_applyAll ho with hw | hd
    · obtain ⟨locators, last, hwrites⟩ := exists_writesThrough (mem_edits.1 hw)
      exact .inr ⟨locators, last, o, hwrites, rfl⟩
    · exact .inl hd.symm

theorem verb_of_trailContext? (h : trailContext? models s chain locators = some context) :
    context.verb = locatorVerb? chain locators := by
  cases descends_iff.2 h with
  | root => rfl
  | locator =>
    rw [locatorVerb?, List.getLast?_append]
    rfl

/-- A reading that succeeds writes through every trail that has a path and a verb, and under no
other verb. -/
theorem exists_writesThrough_iff (h : (readSet models s chain).result = .ok ())
    (ht : IsTrail s (locators ++ [last])) (hp : trailPath? (locators ++ [last]) = some path) :
    (∃ o, WritesThrough models s chain locators last path verb o) ↔
      (chain.resolve last.method).verb.or (locatorVerb? chain locators) = some verb := by
  constructor
  · rintro ⟨o, _, ⟨context, hcontext, hverb, _⟩, _⟩
    rw [← verb_of_trailContext? hcontext]
    exact hverb
  · intro hverb
    obtain ⟨openNames, context, hends, hcontext, hvisit⟩ := readSet_runs_trail h ht (by simp [hp])
    have hdoc := ht.documented last (by simp)
    rw [trailPath?_append_singleton, hends.path] at hp
    obtain ⟨route, hr, rfl⟩ := (route?_eq_some_iff hdoc.1).2 ⟨hdoc, hp⟩
    obtain ⟨built, hbuild, -, hregister⟩ := visitMethod_runs hr hvisit.result
    rw [← hends.verb] at hverb
    have hbuilt := (buildOperation_result_iff hr).2 hbuild.result
    refine ⟨_, ht, ⟨context, hcontext, hverb, route, built, hr, hbuilt, rfl, rfl⟩, ?_⟩
    exact hvisit.notes _ (hregister.notes _ (operation_mem_registerRoute.2 ⟨rfl, hverb, rfl⟩))

end Apidoc
