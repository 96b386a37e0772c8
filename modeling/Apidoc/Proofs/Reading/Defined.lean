import Apidoc.Proofs.Reading.References
import Apidoc.Proofs.Reading.Trail

namespace Apidoc

variable {models : Models} {s : ResourceSet} {chain : VerbChain} {d : Document} {name : String}

/-- A model is reached from a body when a method at the end of a trail with a path has a body of a
type that reaches it. -/
def ReachedFromBody (models : Models) (s : ResourceSet) (name : String) : Prop :=
  ∃ locators last, IsTrail s (locators ++ [last]) ∧ (trailPath? (locators ++ [last])).isSome ∧
    models.ReachedFrom (last.method.bodyTypes s) name

theorem FromVisit.model {v : Visit} {context : Context} {route : Route} {schema : Schema}
    (h : FromVisit models s chain v context route (.edit (.model name schema))) :
    .model name schema ∈ (buildVisible models s v.method).notes := by
  rcases h.origin with h | ⟨built, _, h⟩
  · obtain ⟨n, hn, he⟩ := List.mem_map.1 h
    cases n <;> cases he
    exact hn
  · rcases mem_registerRoute h with ⟨t, ht⟩ | ⟨v, _, hv⟩
    · cases ht
    · cases hv

/-- A reading that succeeds from no definitions defines what is reached from bodies. -/
theorem mem_definitions_read_iff (hd : d.definitions = {})
    (h : (d.read models s chain).2 = .ok ()) :
    name ∈ (d.read models s chain).1.definitions.keys ↔ ReachedFromBody models s name := by
  have hkeys : name ∈ (d.read models s chain).1.definitions.keys ↔
      ∃ schema, .edit (.model name schema) ∈ (readSet models s chain).notes := by
    simp only [Document.read, Document.after, Document.mem_keys_definitions_applyAll, hd,
      Table.keys_empty, List.not_mem_nil, false_or, mem_edits]
  rw [hkeys]
  constructor
  · rintro ⟨schema, hn⟩
    rcases fromTrail_of_mem_readSet hn with
      ⟨t, ht⟩ | ht | ⟨w, hw⟩ | ⟨locators, openNames, v, context, route, hends, _, hvisit⟩
    · cases ht
    · cases ht
    · cases hw
    · obtain ⟨t, ht, _, e, he, rfl, _⟩ := buildVisible_defines.whole hvisit.model
      obtain ⟨hdoc, hpath⟩ := (route?_eq_some_iff hvisit.mem).1 ⟨route, hvisit.routed, rfl⟩
      refine ⟨locators, v, hends.trail _ hdoc, ?_, t, ht, e, he, rfl⟩
      rw [trailPath?_append_singleton, hends.path, Option.bind_some, hpath]
      rfl
  · rintro ⟨locators, last, ht, hp, hreached⟩
    obtain ⟨openNames, context, hends, _, hvisit⟩ := readSet_runs_trail h ht hp
    obtain ⟨path, hpath⟩ := Option.isSome_iff_exists.1 hp
    rw [trailPath?_append_singleton, hends.path] at hpath
    have hdoc := ht.documented last (by simp)
    obtain ⟨route, hr, -⟩ := (route?_eq_some_iff hdoc.1).2 ⟨hdoc, hpath⟩
    obtain ⟨built, hbuild, -, -⟩ := visitMethod_runs hr hvisit.result
    obtain ⟨schema, hn⟩ := (buildVisible_defines.exists_model_iff hbuild.result).2 hreached
    exact ⟨schema, hvisit.notes _ (hbuild.notes _ (List.mem_map.2 ⟨_, hn, rfl⟩))⟩

/-- After a reading that succeeds from no definitions, headers and parameters outside the body
mention defined models exactly when bodies reach all that they mention. -/
theorem beside_defined_iff (hd : d.definitions = {}) (h : (d.read models s chain).2 = .ok ()) :
    let result := (d.read models s chain).1
    (∀ name, result.MentionsBeside name → name ∈ result.definitions.keys) ↔
      ∀ name, result.MentionsBeside name → ReachedFromBody models s name := by
  intro result
  constructor
  · intro hall name hn
    exact (mem_definitions_read_iff hd h).1 (hall name hn)
  · intro hall name hn
    exact (mem_definitions_read_iff hd h).2 (hall name hn)

def statusModels : Models where
  definitions := [⟨"Status", .choice ["available", "sold"]⟩]

/-- A set with one operation, which takes statuses in its query and has no body. -/
def statusSet : ResourceSet :=
  let find : Method := {
    name := "find"
    parameters := [⟨⟨"Vec", [⟨"Status", []⟩]⟩, [.query "status"]⟩]
    declaration := { operation := some {}, path := some "", verb := some .get } }
  ({} : ResourceSet).addRoot
    { name := "Pets", api := some {}, path := some "/pets", methods := [find] }

theorem read_statusSet : (({} : Document).read statusModels statusSet .standard).2 = .ok () := by
  cbv

theorem statusSet_mentionsBeside :
    (({} : Document).read statusModels statusSet .standard).1.MentionsBeside "Status" := by
  have ho : (({} : Document).read statusModels statusSet .standard).1.operation? "/pets" .get =
      some {
        operationId := "find"
        parameters := [{
          name := "status"
          location := .query
          required := false
          type := some "array"
          items := some (.ofModel "Status")
          collectionFormat := some "multi" }]
        responses := ⟨[("default", successful none none)]⟩ } := by cbv
  exact ⟨_, _, _, ho, .inr ⟨_, List.mem_singleton_self _, by decide, _, rfl,
    Schema.mentions_ofModel.2 rfl⟩⟩

theorem definitions_statusSet :
    (({} : Document).read statusModels statusSet .standard).1.definitions.keys = [] := by
  cbv

theorem statusSet_dangles :
    let result := (({} : Document).read statusModels statusSet .standard).1
    (({} : Document).read statusModels statusSet .standard).2 = .ok () ∧
      ¬∀ name, result.MentionsBeside name → name ∈ result.definitions.keys := by
  refine ⟨read_statusSet, fun h => ?_⟩
  have hkey := h "Status" statusSet_mentionsBeside
  rw [definitions_statusSet] at hkey
  cases hkey

theorem statusSet_not_reached :
    let result := (({} : Document).read statusModels statusSet .standard).1
    (({} : Document).read statusModels statusSet .standard).2 = .ok () ∧
      ¬∀ name, result.MentionsBeside name → ReachedFromBody statusModels statusSet name := by
  refine ⟨read_statusSet, fun hall => ?_⟩
  have hkey := (beside_defined_iff rfl read_statusSet).2 hall "Status" statusSet_mentionsBeside
  rw [definitions_statusSet] at hkey
  cases hkey

end Apidoc
