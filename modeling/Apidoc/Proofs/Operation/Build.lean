import Apidoc.Operation.Build
import Apidoc.Proofs.Logged

namespace Apidoc

variable {m : Models} {s : ResourceSet} {method : Method} {built : Option Operation}

theorem Build.answers_lift_some {α : Type} {x : Except Error (Option α)} {P : α → Prop}
    (h : ∀ a, x = .ok (some a) → P a) :
    (Build.lift x).Answers fun answer => ∀ a, answer = some a → P a := by
  intro answer hanswer a ha
  cases ha
  exact h a hanswer

def primaryHeaders (m : Models) (method : Method) : Build (Option (Table Schema)) :=
  match method.operation? with
  | some info => Build.lift (responseHeaders m info.headers)
  | none => pure none

def Method.primaryType (method : Method) : TypeRef :=
  method.responseType method.operation?

/-- The responses before the explicit ones: the primary one, whose models are noted with it. -/
def primaryResponses (m : Models) (s : ResourceSet) (method : Method)
    (headers : Option (Table Schema)) : Build (Table Response) := do
  let primary ← primaryResponse m s method.primaryType (responseContainer method.operation?) headers
  Build.models (← Build.lift (bodyModels m s method.primaryType))
  return match primary with
    | some r =>
      ({} : Table Response).put (responseKey ((method.operation?.map (·.code)).getD 200)) r
    | none => {}

def operationParameters (m : Models) (s : ResourceSet) (method : Method) :
    Build (List Parameter) := do
  let declared ← methodParameters m s
    ((method.parameters.map (·.type)).zip method.parameterAnnotations)
  let implicit ← implicitParameters m (method.implicitParameters.getD [])
  return declared ++ implicit

def Method.operationWith (method : Method) (headers : Option (Table Schema))
    (responses : Table Response) (parameters : List Parameter) : Operation :=
  let o : Operation := { operationId := method.operationId method.operation? }
  let o := match method.operation? with
    | some info => o.document info
    | none => o
  { o with
    consumes := method.consumes?
    produces := method.produces?
    parameters
    responses :=
      if responses.isEmpty then responses.put "default" (successful headers none) else responses
    deprecated := method.isDeprecated }

def buildVisible (m : Models) (s : ResourceSet) (method : Method) : Build Operation := do
  let headers ← primaryHeaders m method
  let responses ← primaryResponses m s method headers
  let responses ← addResponses m responses (method.responses.getD [])
  let parameters ← operationParameters m s method
  return method.operationWith headers responses parameters

def Method.IsHidden (method : Method) : Prop :=
  ∃ info, method.operation? = some info ∧ info.hidden = true

theorem Method.isHidden_iff :
    method.IsHidden ↔ (method.operation?.map (·.hidden)).getD false = true := by
  unfold Method.IsHidden
  cases method.operation? <;> simp

theorem buildOperation_hidden (h : method.IsHidden) : buildOperation m s method = pure none := by
  obtain ⟨info, hi, hh⟩ := h
  simp [buildOperation, hi, hh]

theorem buildOperation_visible (h : ¬method.IsHidden) :
    buildOperation m s method = (buildVisible m s method).bind fun o => pure (some o) := by
  have hh : ∀ info, method.operation? = some info → info.hidden = false := by
    intro info hi
    cases hh : info.hidden with
    | false => rfl
    | true => exact (h ⟨info, hi, hh⟩).elim
  simp only [buildVisible, primaryResponses, operationParameters, Logged.bind_eq,
    Logged.bind_assoc, Logged.pure_bind, Method.primaryType, Method.operationWith]
  unfold buildOperation primaryHeaders
  cases hi : method.operation? with
  | none => rfl
  | some info =>
    simp only [Option.map_some, Option.getD_some, hh info hi]
    rfl

/-- What is so of the parameters that are built for a method is so of those of its operation. -/
theorem buildOperation_parameters {R : List Parameter → Prop} {o : Operation}
    (hR : (operationParameters m s method).Answers R)
    (h : (buildOperation m s method).result = .ok (some o)) : R o.parameters := by
  by_cases hidden : method.IsHidden
  · rw [buildOperation_hidden hidden] at h
    cases h
  · rw [buildOperation_visible hidden] at h
    obtain ⟨built, hbuilt, he⟩ := Logged.result_bind_eq_ok.1 h
    cases he
    obtain ⟨_, _, hbuilt⟩ := Logged.result_bind_eq_ok.1 hbuilt
    obtain ⟨_, _, hbuilt⟩ := Logged.result_bind_eq_ok.1 hbuilt
    obtain ⟨_, _, hbuilt⟩ := Logged.result_bind_eq_ok.1 hbuilt
    obtain ⟨parameters, hparameters, hbuilt⟩ := Logged.result_bind_eq_ok.1 hbuilt
    cases hbuilt
    exact hR parameters hparameters

end Apidoc
