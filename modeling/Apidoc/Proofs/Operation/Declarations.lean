import Apidoc.Proofs.Operation.Build
import Apidoc.VerbChain

namespace Apidoc

/-- Two declarations in one: where the nearer one says nothing, the other one counts. -/
def Declaration.over (near base : Declaration) : Declaration where
  operation := near.operation.or base.operation
  path := near.path.or base.path
  verb := near.verb.or base.verb
  customAnnotations := near.customAnnotations
  consumes := near.consumes.or base.consumes
  produces := near.produces.or base.produces
  responses := near.responses.or base.responses
  implicitParameters := near.implicitParameters.or base.implicitParameters
  deprecated := near.deprecated || base.deprecated

/-- Appends lists position by position; what one side lacks counts as empty. -/
def appendEach {α : Type} : List (List α) → List (List α) → List (List α)
  | [], bs => bs
  | as, [] => as
  | a :: as, b :: bs => (a ++ b) :: appendEach as bs

/-- Two adjacent levels of a chain in one. -/
def Overridden.merge (base near : Overridden) : Overridden where
  declaration := near.declaration.over base.declaration
  parameterAnnotations := appendEach base.parameterAnnotations near.parameterAnnotations

namespace Method

/-- What the declarations of a method say together. Custom annotations are not inherited. -/
def effectiveDeclaration (m : Method) : Declaration where
  operation := m.operation?
  path := m.path?
  verb := m.verb?
  customAnnotations := m.declaration.customAnnotations
  consumes := m.consumes?
  produces := m.produces?
  responses := m.responses
  implicitParameters := m.implicitParameters
  deprecated := m.isDeprecated

/-- The method that overrides nothing and says itself what the declarations say together. -/
def flat (m : Method) : Method where
  name := m.name
  returnType := m.returnType
  parameters := m.parameters.mapIdx fun i p =>
    { p with annotations := m.inheritedAnnotations i ++ p.annotations }
  declaration := m.effectiveDeclaration

/-- A method is flattened altogether, or two adjacent levels of its chain are merged. -/
inductive Flattens (m : Method) : Method → Prop
  | flat : Flattens m m.flat
  | merge {before after : List Overridden} {base near : Overridden}
    (h : m.overridden = before ++ base :: near :: after) :
    Flattens m { m with overridden := before ++ base.merge near :: after }

/-- Methods that say the same, but for the annotations of their parameters. -/
structure DeclaresAs (m m' : Method) : Prop where
  name : m.name = m'.name
  returnType : m.returnType = m'.returnType
  types : m.parameters.map (·.type) = m'.parameters.map (·.type)
  effective : m.effectiveDeclaration = m'.effectiveDeclaration

/-- Methods that say the same, wherever they take it from. -/
structure ActsAs (m m' : Method) : Prop where
  name : m.name = m'.name
  returnType : m.returnType = m'.returnType
  types : m.parameters.map (·.type) = m'.parameters.map (·.type)
  annotations : m.parameterAnnotations = m'.parameterAnnotations
  effective : m.effectiveDeclaration = m'.effectiveDeclaration

end Method

variable {α : Type} {m m' : Method} {before after : List Overridden} {base near : Overridden}
  {models : Models} {s : ResourceSet} {chain : VerbChain}

theorem getD_appendEach (as bs : List (List α)) (i : Nat) :
    (appendEach as bs)[i]?.getD [] = as[i]?.getD [] ++ bs[i]?.getD [] := by
  induction as generalizing bs i with
  | nil => simp [appendEach]
  | cons a as ih =>
    cases bs with
    | nil => simp [appendEach]
    | cons b bs =>
      cases i with
      | zero => simp [appendEach]
      | succ i =>
        have hrest := ih bs i
        simpa [appendEach] using hrest

namespace Method

section Merge

theorem declarations_of_chain (h : m.overridden = before ++ base :: near :: after) :
    m.declarations = (m.declaration :: after.reverse.map (·.declaration)) ++
      near.declaration :: base.declaration :: before.reverse.map (·.declaration) := by
  rw [declarations, h]
  simp

theorem declarations_merge :
    declarations { m with overridden := before ++ base.merge near :: after } =
      (m.declaration :: after.reverse.map (·.declaration)) ++
        near.declaration.over base.declaration :: before.reverse.map (·.declaration) := by
  rw [declarations]
  simp [Overridden.merge]

/-- A value that two declarations together have as one of them has it is found as before. -/
theorem effective_merge {select : Declaration → Option α}
    (h : m.overridden = before ++ base :: near :: after)
    (hselect : select (near.declaration.over base.declaration) =
      (select near.declaration).or (select base.declaration)) :
    m.effective select =
      effective { m with overridden := before ++ base.merge near :: after } select := by
  rw [effective, effective, declarations_of_chain h, declarations_merge, List.findSome?_append,
    List.findSome?_append]
  congr 1
  simp only [List.findSome?_cons, hselect]
  cases select near.declaration <;> cases select base.declaration <;> rfl

theorem isDeprecated_merge (h : m.overridden = before ++ base :: near :: after) :
    m.isDeprecated = isDeprecated { m with overridden := before ++ base.merge near :: after } := by
  rw [isDeprecated, isDeprecated, declarations_of_chain h, declarations_merge, List.any_append,
    List.any_append]
  congr 1
  simp only [List.any_cons, Declaration.over, Bool.or_assoc]

theorem inheritedAnnotations_merge (h : m.overridden = before ++ base :: near :: after) (i : Nat) :
    m.inheritedAnnotations i =
      inheritedAnnotations { m with overridden := before ++ base.merge near :: after } i := by
  have hlevels : (base.merge near).parameterAnnotations[i]?.getD [] =
      base.parameterAnnotations[i]?.getD [] ++ near.parameterAnnotations[i]?.getD [] :=
    getD_appendEach _ _ _
  rw [inheritedAnnotations, inheritedAnnotations, h]
  simp only [List.flatMap_append, List.flatMap_cons, hlevels, List.append_assoc]

theorem actsAs_merge (h : m.overridden = before ++ base :: near :: after) :
    m.ActsAs { m with overridden := before ++ base.merge near :: after } where
  name := rfl
  returnType := rfl
  types := rfl
  annotations := by
    rw [parameterAnnotations, parameterAnnotations]
    congr 1
    funext i p
    rw [inheritedAnnotations_merge h]
  effective := by
    rw [effectiveDeclaration, effectiveDeclaration, Declaration.mk.injEq]
    exact ⟨effective_merge h rfl, effective_merge h rfl, effective_merge h rfl, rfl,
      effective_merge h rfl, effective_merge h rfl, effective_merge h rfl, effective_merge h rfl,
      isDeprecated_merge h⟩

end Merge

section Flat

theorem effective_flat (select : Declaration → Option α) :
    m.flat.effective select = select m.effectiveDeclaration := by
  have hdeclarations : m.flat.declarations = [m.effectiveDeclaration] := rfl
  rw [effective, hdeclarations, List.findSome?_singleton]

theorem types_flat : m.flat.parameters.map (·.type) = m.parameters.map (·.type) := by
  apply List.ext_getElem
  · simp [flat]
  · intro i _ _
    simp [flat]

theorem annotations_flat : m.flat.parameterAnnotations = m.parameterAnnotations := by
  rw [parameterAnnotations, parameterAnnotations, flat, List.mapIdx_mapIdx]
  congr 1

theorem actsAs_flat : m.ActsAs m.flat where
  name := rfl
  returnType := rfl
  types := types_flat.symm
  annotations := annotations_flat.symm
  effective := by
    rw [effectiveDeclaration, effectiveDeclaration, Declaration.mk.injEq]
    have heffective {β : Type} (select : Declaration → Option β) :
        select m.effectiveDeclaration = m.flat.effective select := (effective_flat select).symm
    have hdeprecated : m.isDeprecated = m.flat.isDeprecated := (Bool.or_false _).symm
    exact ⟨heffective (·.operation), heffective (·.path), heffective (·.verb), rfl,
      heffective (·.consumes), heffective (·.produces), heffective (·.responses),
      heffective (·.implicitParameters), hdeprecated⟩

end Flat

/-- Flattening a method changes nothing that is made of it. -/
theorem Flattens.actsAs (h : m.Flattens m') : m.ActsAs m' := by
  cases h with
  | flat => exact actsAs_flat
  | merge h => exact actsAs_merge h

/-- Of the annotations of its parameters, a method gives its operation the parameters only. -/
theorem DeclaresAs.buildOperation (h : m.DeclaresAs m')
    (hparameters : methodParameters models s
        ((m.parameters.map (·.type)).zip m.parameterAnnotations) =
      methodParameters models s ((m'.parameters.map (·.type)).zip m'.parameterAnnotations)) :
    buildOperation models s m = buildOperation models s m' := by
  have hoperation : m.operation? = m'.operation? := congrArg Declaration.operation h.effective
  have hconsumes : m.consumes? = m'.consumes? := congrArg Declaration.consumes h.effective
  have hproduces : m.produces? = m'.produces? := congrArg Declaration.produces h.effective
  have hresponses : m.responses = m'.responses := congrArg Declaration.responses h.effective
  have himplicit : m.implicitParameters = m'.implicitParameters :=
    congrArg Declaration.implicitParameters h.effective
  have hdeprecated : m.isDeprecated = m'.isDeprecated :=
    congrArg Declaration.deprecated h.effective
  simp only [Apidoc.buildOperation, Method.operationId, Method.responseType, hoperation, h.name,
    h.returnType, hparameters, hconsumes, hproduces, hresponses, himplicit, hdeprecated]

namespace ActsAs

theorem refl (m : Method) : m.ActsAs m :=
  ⟨rfl, rfl, rfl, rfl, rfl⟩

variable (h : m.ActsAs m')
include h

theorem operation? : m.operation? = m'.operation? :=
  congrArg Declaration.operation h.effective

theorem path? : m.path? = m'.path? :=
  congrArg Declaration.path h.effective

/-- Every way of finding a verb goes by what a method says. -/
theorem resolve_standard : VerbChain.standard.resolve m = VerbChain.standard.resolve m' := by
  have hverb : m.verb? = m'.verb? := congrArg Declaration.verb h.effective
  have heffective := congrArg Declaration.customAnnotations h.effective
  have hcustom : m.declaration.customAnnotations = m'.declaration.customAnnotations := heffective
  simp only [VerbChain.standard, VerbChain.resolve, VerbResolver.operation,
    VerbResolver.standard, VerbResolver.custom, h.operation?, h.name, hverb, hcustom]

/-- Building an operation goes by what a method says. -/
theorem buildOperation : buildOperation models s m = buildOperation models s m' := by
  refine DeclaresAs.buildOperation ⟨h.name, h.returnType, h.types, h.effective⟩ ?_
  rw [h.types, h.annotations]

end ActsAs

end Method

end Apidoc
