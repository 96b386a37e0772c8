import Apidoc.Proofs.Operation.Shape
import Apidoc.Proofs.Reading.Registered
import Apidoc.Proofs.Reading.Writes
import Mathlib

namespace Apidoc

variable {models : Models} {s : ResourceSet} {chain : VerbChain} {context : Context}
  {route : Route} {locators : List Visit} {last : Visit} {path : String} {verb : Verb}
  {o : Operation} {d : Document}

theorem AllWellShaped.inContext (h : AllWellShaped o.parameters)
    (hcontext : AllWellShaped context.parameters) :
    AllWellShaped (o.inContext context route).parameters := by
  apply applyPatterns_wellShaped
  intro p hp
  rcases Operation.mem_addParameters hp with hp | ⟨hp, _⟩
  · exact h p hp
  · exact hcontext p hp

theorem wellShaped_of_trailContext? (h : trailContext? models s chain locators = some context) :
    AllWellShaped context.parameters := by
  replace h := descends_iff.2 h
  induction h with
  | root => exact allWellShaped_nil
  | locator _ _ hbuilt ih => exact (buildOperation_wellShaped hbuilt).inContext ih

theorem WritesThrough.wellShaped (h : WritesThrough models s chain locators last path verb o) :
    AllWellShaped o.parameters := by
  obtain ⟨context, hcontext, _, route, built, _, hbuilt, _, rfl⟩ := h.registers
  rw [Operation.parameters_registered]
  exact (buildOperation_wellShaped hbuilt).inContext (wellShaped_of_trailContext? hcontext)

/-- Every parameter of an operation that a reading registers is shaped well, whether a later
operation takes its place or it is still there when the reading ends or fails. -/
theorem Document.wellShaped_read (hd : d.paths = {}) :
    (∀ path verb o, .edit (.operation path verb o) ∈ (readSet models s chain).notes →
      AllWellShaped o.parameters) ∧
    ∀ path verb o, (d.read models s chain).1.operation? path verb = some o →
      AllWellShaped o.parameters := by
  have hwritten (path : String) (verb : Verb) (o : Operation)
      (h : .edit (.operation path verb o) ∈ (readSet models s chain).notes) :
      AllWellShaped o.parameters := by
    obtain ⟨locators, last, hw⟩ := exists_writesThrough h
    exact hw.wellShaped
  constructor
  · exact hwritten
  · intro path verb o ho
    rcases operation?_applyAll ho with hw | hbefore
    · exact hwritten path verb o (mem_edits.1 hw)
    · rw [operation?, hd] at hbefore
      cases hbefore

section Crates

def crateUpdate : Method where
  name := "update"
  parameters := [
    ⟨⟨"i64", []⟩, [.path "id"]⟩,
    ⟨⟨"Vec", [⟨"String", []⟩]⟩, [.query "label"]⟩,
    ⟨⟨"Crate", []⟩, [.api { type := "string" }]⟩]
  declaration := { operation := some {}, path := some "/{id: [0-9]+}", verb := some .put }

/-- A parameter in the path, an array and a body. -/
def crateSet : ResourceSet :=
  ({} : ResourceSet).addRoot
    { name := "Crates", api := some {}, path := some "/crates", methods := [crateUpdate] }

def crateParameters : List Parameter := [
  { name := "id", location := .path, required := true, type := some "integer",
    format := some "int64", pattern := some "[0-9]+" },
  { name := "label", location := .query, required := false, type := some "array",
    items := some (.scalar "string" none), collectionFormat := some "multi" },
  { name := "body", location := .body, required := false, schema := some (.scalar "string" none) }]

theorem crateSet_wellShaped : ({} : Document).paths = {} ∧ ∃ o,
    (({} : Document).read {} crateSet .standard).1.operation? "/crates/{id}" .put = some o ∧
      o.parameters = crateParameters ∧ AllWellShaped o.parameters := by
  have hread : (({} : Document).read {} crateSet .standard).1.operation? "/crates/{id}" .put =
      some {
        operationId := "update"
        parameters := crateParameters
        responses := ⟨[("default", successful none none)]⟩ } := by cbv
  exact ⟨rfl, _, hread, rfl, (Document.wellShaped_read rfl).2 _ _ _ hread⟩

end Crates

end Apidoc
