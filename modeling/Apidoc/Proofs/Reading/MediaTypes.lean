import Apidoc.Proofs.Distinct
import Apidoc.Proofs.Reading.Inherited
import Mathlib

namespace Apidoc

inductive MediaKind where
  | consumes
  | produces

namespace MediaKind

def ofResource (r : Resource) : MediaKind → List String
  | consumes => r.consumes
  | produces => r.produces

def ofContext (context : Context) : MediaKind → List String
  | consumes => context.consumes
  | produces => context.produces

def ofMethod? (m : Method) : MediaKind → Option (List String)
  | consumes => m.consumes?
  | produces => m.produces?

def ofOperation? (o : Operation) : MediaKind → Option (List String)
  | consumes => o.consumes
  | produces => o.produces

/-- What a locator hands down: the types of its class, those that it inherits and its own, each
where it first occurs. -/
def ofLocator (kind : MediaKind) (inherited : List String) (v : Visit) : List String :=
  (kind.ofResource v.resource ++ inherited ++ (kind.ofMethod? v.method).getD []).eraseDups

def ofLocators (kind : MediaKind) (locators : List Visit) : List String :=
  locators.foldl kind.ofLocator []

/-- What stands in where a method declares nothing. -/
def inherited (kind : MediaKind) (locators : List Visit) (last : Visit) : List String :=
  (kind.ofResource last.resource ++ kind.ofLocators locators).eraseDups

end MediaKind

variable {models : Models} {s : ResourceSet} {chain : VerbChain} {context : Context}
  {route : Route} {r : Resource} {verb? : Option Verb} {locators visits : List Visit}
  {v last : Visit} {path : String} {verb : Verb} {o built : Operation} {m : Method}
  {kind : MediaKind}

namespace MediaKind

theorem ofLocators_append_singleton :
    kind.ofLocators (visits ++ [v]) = kind.ofLocator (kind.ofLocators visits) v := by
  simp [ofLocators]

theorem ofOperation?_addTag (o : Operation) (tag : String) :
    kind.ofOperation? (o.addTag tag) = kind.ofOperation? o := by
  rw [Operation.addTag]
  split
  · rfl
  · cases kind <;> rfl

theorem ofOperation?_addSecurity (o : Operation) (requirement : SecurityRequirement) :
    kind.ofOperation? (o.addSecurity requirement) = kind.ofOperation? o := by
  rw [Operation.addSecurity]
  split
  · rfl
  · cases kind <;> rfl

theorem ofOperation?_addParameter (o : Operation) (p : Parameter) :
    kind.ofOperation? (o.addParameter p) = kind.ofOperation? o := by
  rw [Operation.addParameter]
  split
  · rfl
  · cases kind <;> rfl

theorem ofOperation?_inContext :
    kind.ofOperation? (o.inContext context route) = kind.ofOperation? o := by
  have hadded : kind.ofOperation? (context.parameters.foldl Operation.addParameter o) =
      kind.ofOperation? o :=
    Operation.foldl_eq (g := fun o => kind.ofOperation? o) ofOperation?_addParameter _ _
  rw [← hadded]
  cases kind <;> rfl

theorem ofOperation?_buildVisible : (buildVisible models s m).Answers fun o =>
    kind.ofOperation? o = kind.ofMethod? m := by
  simp only [buildVisible, Logged.bind_eq]
  refine Logged.Answers.after fun headers => Logged.Answers.after fun _ =>
    Logged.Answers.after fun responses => Logged.Answers.after fun parameters => .pure ?_
  cases kind <;> rfl

/-- A method is built with what it declares, and with nothing else. -/
theorem ofOperation?_built (hr : route? context r m = some (some route))
    (hbuilt : (buildOperation models s m).result = .ok (some built)) :
    kind.ofOperation? built = kind.ofMethod? m :=
  ofOperation?_buildVisible _ ((buildOperation_result_iff hr).1 hbuilt)

theorem ofContext_descend :
    kind.ofContext (Context.descend r context route verb? o) =
      (kind.ofResource r ++ kind.ofContext context ++ (kind.ofOperation? o).getD []).eraseDups := by
  cases kind <;> exact distinct_eq_eraseDups

/-- Where an operation declares nothing, the types around it are filled in, if there are any. -/
theorem ofOperation?_registered :
    let around := kind.ofContext (Context.descend r context route verb? o)
    kind.ofOperation? (o.registered r context route verb?) =
      (kind.ofOperation? o).or (if around.isEmpty then none else some around) := by
  intro around
  let inner := Context.descend r context route verb? o
  let tagged := (route.info.tags.filter (· ≠ "")).foldl Operation.addTag o
  have htagged : kind.ofOperation? tagged = kind.ofOperation? o :=
    Operation.foldl_eq (g := fun o => kind.ofOperation? o) ofOperation?_addTag _ _
  have hregistered : kind.ofOperation? (o.registered r context route verb?) =
      kind.ofOperation? (tagged.orMedia inner.consumes inner.produces) :=
    Operation.registered_eq (g := fun o => kind.ofOperation? o) ofOperation?_addTag
      ofOperation?_addSecurity
  rw [hregistered, ← htagged]
  cases kind <;> rfl

end MediaKind

theorem media_of_trailContext? (h : trailContext? models s chain locators = some context) :
    kind.ofContext context = kind.ofLocators locators := by
  replace h := descends_iff.2 h
  induction h with
  | root => cases kind <;> rfl
  | locator _ hr hbuilt ih =>
    rw [MediaKind.ofContext_descend, MediaKind.ofOperation?_inContext,
      MediaKind.ofOperation?_built hr hbuilt, ih, MediaKind.ofLocators_append_singleton]
    rfl

/-- The media types of an operation that a reading registers are those that its method declares, or
else those of its class and its locators; there are none when both say nothing. -/
theorem WritesThrough.media?_eq (h : WritesThrough models s chain locators last path verb o)
    (kind : MediaKind) :
    let inherited := kind.inherited locators last
    inherited.Nodup ∧
      kind.ofOperation? o = (kind.ofMethod? last.method).or
        (if inherited = [] then none else some inherited) ∧
      (kind.ofOperation? o = none ↔ kind.ofMethod? last.method = none ∧ inherited = []) := by
  intro inherited
  have hmedia : kind.ofOperation? o = (kind.ofMethod? last.method).or
      (if inherited = [] then none else some inherited) := by
    obtain ⟨context, hcontext, _, route, built, hr, hbuilt, _, rfl⟩ := h.registers
    rw [MediaKind.ofOperation?_registered, MediaKind.ofContext_descend,
      MediaKind.ofOperation?_inContext, MediaKind.ofOperation?_built hr hbuilt,
      media_of_trailContext? hcontext]
    cases hown : kind.ofMethod? last.method with
    | some types => simp
    | none =>
      rw [Option.getD_none, List.append_nil, Option.none_or, Option.none_or]
      change (if inherited.isEmpty then none else some inherited) = _
      by_cases hnone : inherited = []
      · simp [hnone]
      · simp [hnone]
  refine ⟨nodup_eraseDups _, hmedia, ?_⟩
  rw [hmedia, Option.or_eq_none_iff]
  simp

/-- Nothing is declared of what birds consume, and nothing is what they produce. -/
theorem aviarySet_media : ∃ o, WritesThrough {} aviarySet .standard [aviaryVisit, cageVisit]
    birdVisit "/aviaries/{id}/cages/birds/all" .get o ∧
      o.consumes = some ["application/json", "application/xml", "text/plain"] ∧
      o.produces = some [] := by
  obtain ⟨o, ho, _⟩ := aviarySet_writes
  have hconsumes := (WritesThrough.media?_eq ho .consumes).2.1
  have hproduces := (WritesThrough.media?_eq ho .produces).2.1
  have hinherited : MediaKind.consumes.inherited [aviaryVisit, cageVisit] birdVisit =
      ["application/json", "application/xml", "text/plain"] := by decide
  rw [hinherited] at hconsumes
  exact ⟨o, ho, hconsumes, hproduces⟩

end Apidoc
