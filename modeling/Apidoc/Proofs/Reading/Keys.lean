import Apidoc.Proofs.Operation.Outline
import Apidoc.Proofs.Reading.Registered
import Apidoc.Proofs.Reading.Writes

namespace Apidoc

variable {models : Models} {s : ResourceSet} {chain : VerbChain} {context : Context}
  {route : Route} {locators : List Visit} {last : Visit} {path : String} {verb : Verb}
  {o : Operation} {p q : Parameter} {d : Document}

theorem Parameter.sameKey_iff : p.sameKey q = true ↔ p.key = q.key := by
  simp [sameKey, key]

theorem applyPatterns_keys {patterns : Table String} {ps : List Parameter} :
    (applyPatterns patterns ps).map (·.key) = ps.map (·.key) := by
  unfold applyPatterns
  rw [List.map_map]
  apply List.map_congr_left
  intro p _
  change (if p.location = .path then _ else p : Parameter).key = p.key
  split <;> rfl

namespace Operation

def HasDistinctParameters (o : Operation) : Prop :=
  (o.parameters.map (·.key)).Nodup

theorem parameters_addParameter (o : Operation) (p : Parameter) :
    (o.addParameter p).parameters =
      if p.key ∈ o.parameters.map (·.key) then o.parameters else o.parameters ++ [p] := by
  have hkey : o.parameters.any (·.sameKey p) = true ↔ p.key ∈ o.parameters.map (·.key) := by
    simp only [List.any_eq_true, Parameter.sameKey_iff, List.mem_map]
  rw [addParameter]
  by_cases hp : p.key ∈ o.parameters.map (·.key)
  · rw [if_pos hp, if_pos (hkey.2 hp)]
  · rw [if_neg hp, if_neg (mt hkey.1 hp)]

theorem hasDistinctParameters_addParameter :
    (o.addParameter p).HasDistinctParameters ↔ o.HasDistinctParameters := by
  rw [HasDistinctParameters, HasDistinctParameters, parameters_addParameter]
  by_cases hp : p.key ∈ o.parameters.map (·.key)
  · rw [if_pos hp]
  · rw [if_neg hp, List.map_append, List.map_singleton, List.nodup_append_comm]
    exact List.nodup_cons.trans (and_iff_right hp)

theorem hasDistinctParameters_inContext :
    (o.inContext context route).HasDistinctParameters ↔ o.HasDistinctParameters := by
  have hpatterns : (o.inContext context route).HasDistinctParameters ↔
      (context.parameters.foldl addParameter o).HasDistinctParameters := by
    unfold HasDistinctParameters inContext
    rw [applyPatterns_keys]
  have hadded : (context.parameters.foldl addParameter o).HasDistinctParameters =
      o.HasDistinctParameters :=
    foldl_eq (fun _ _ => propext hasDistinctParameters_addParameter) _ _
  rw [hpatterns, hadded]

end Operation

theorem WritesThrough.hasDistinctParameters_iff
    (h : WritesThrough models s chain locators last path verb o) :
    o.HasDistinctParameters ↔ (last.method.parameterKeys s).Nodup := by
  obtain ⟨context, _, _, route, built, _, hbuilt, _, rfl⟩ := h.registers
  unfold Operation.HasDistinctParameters
  rw [Operation.parameters_registered, ← (buildOperation_outlined hbuilt).keys]
  exact Operation.hasDistinctParameters_inContext

/-- Each operation that a reading registers is that of the method at the end of a trail. Its
parameters differ in name or location exactly when those do that the method itself stands for. -/
theorem Document.distinct_parameters_iff (hd : d.paths = {})
    (ho : (d.read models s chain).1.operation? path verb = some o) :
    ∃ locators last, WritesThrough models s chain locators last path verb o ∧
      (o.HasDistinctParameters ↔ (last.method.parameterKeys s).Nodup) := by
  rcases operation?_applyAll ho with hw | hbefore
  · obtain ⟨locators, last, hwrites⟩ := exists_writesThrough (mem_edits.1 hw)
    exact ⟨locators, last, hwrites, hwrites.hasDistinctParameters_iff⟩
  · rw [operation?, hd] at hbefore
    cases hbefore

section Limits

def limitedList : Method where
  name := "list"
  parameters := [⟨⟨"i64", []⟩, [.query "limit"]⟩]
  declaration := {
    operation := some {}
    implicitParameters := some [{ name := "limit", type := "integer", location := "query" }]
    path := some ""
    verb := some .get }

/-- A method declares a parameter and documents it once more. -/
def limitSet : ResourceSet :=
  ({} : ResourceSet).addRoot
    { name := "Pets", api := some {}, path := some "/pets", methods := [limitedList] }

def declaredLimit : Parameter where
  name := "limit"
  location := .query
  required := false
  type := some "integer"
  format := some "int64"

theorem operation_limitSet : ∃ o,
    (({} : Document).read {} limitSet .standard).1.operation? "/pets" .get = some o ∧
      o.parameters = [declaredLimit, { declaredLimit with format := some "int32" }] := by
  have hread : (({} : Document).read {} limitSet .standard).1.operation? "/pets" .get = some {
      operationId := "list"
      parameters := [declaredLimit, { declaredLimit with format := some "int32" }]
      responses := ⟨[("default", successful none none)]⟩ } := by cbv
  exact ⟨_, hread, rfl⟩

theorem limitSet_distinct_iff : ({} : Document).paths = {} ∧ ∃ o locators last,
    (({} : Document).read {} limitSet .standard).1.operation? "/pets" .get = some o ∧
      WritesThrough {} limitSet .standard locators last "/pets" .get o ∧
      (o.HasDistinctParameters ↔ (last.method.parameterKeys limitSet).Nodup) := by
  obtain ⟨o, ho, _⟩ := operation_limitSet
  obtain ⟨locators, last, hw, hiff⟩ := Document.distinct_parameters_iff rfl ho
  exact ⟨rfl, o, locators, last, ho, hw, hiff⟩

/-- The operation has the parameter twice. -/
theorem limitSet_repeats :
    (({} : Document).read {} limitSet .standard).2 = .ok () ∧
      ¬∀ (d : Document) (path : String) (verb : Verb) (o : Operation), d.paths = {} →
        (d.read {} limitSet .standard).1.operation? path verb = some o →
        o.HasDistinctParameters := by
  refine ⟨by cbv, fun h => ?_⟩
  obtain ⟨o, ho, hparameters⟩ := operation_limitSet
  have hdistinct := h {} _ _ o rfl ho
  unfold Operation.HasDistinctParameters at hdistinct
  rw [hparameters] at hdistinct
  exact absurd hdistinct (by decide)

end Limits

end Apidoc
