import Apidoc.Proofs.Operation.Parameters

namespace Apidoc

def Parameter.key (p : Parameter) : String × Location :=
  (p.name, p.location)

/-- The name of a body parameter. -/
def bodyName (info : Option ParameterInfo) : String :=
  (info.bind fun i => Text.nonEmpty? i.name).getD "body"

def bodyKeys (schema : Option Schema) (t : TypeRef) (info : Option ParameterInfo) :
    List (String × Location) :=
  if schema.isNone && t.leaf.isVoid then [] else [(bodyName info, .body)]

/-- The name and location of the parameter that a leaf stands for, if it stands for one: a body of
the empty type is none, unless it is documented to be something else. -/
def Leaf.keys : Leaf → List (String × Location)
  | .warning _ => []
  | .parameter t annotations =>
    let info := annotations.findSome? (·.info?)
    match annotations.findSome? (·.location?), documented info t with
    | some (location, name), _ => [(name, location)]
    | none, .ok (schema, t) => bodyKeys schema t info
    | none, .error _ => []

def ImplicitParameter.keys (i : ImplicitParameter) : List (String × Location) :=
  ((Location.parse? i.location).map fun location => (i.name, location)).toList

/-- The names and locations of what a method declares, the fields of its beans included, and of what
it documents without declaring it. -/
def Method.parameterKeys (s : ResourceSet) (method : Method) : List (String × Location) :=
  (method.leaves s).flatMap (·.keys) ++ (method.implicitParameters.getD []).flatMap (·.keys)

def Unpatterned (ps : List Parameter) : Prop :=
  ∀ p ∈ ps, p.pattern = none

structure Outlined (keys : List (String × Location)) (ps : List Parameter) : Prop where
  keys : ps.map (·.key) = keys
  unpatterned : Unpatterned ps

variable {m : Models} {s : ResourceSet} {t : TypeRef} {ps qs : List Parameter} {p : Parameter}
  {ks ls : List (String × Location)} {method : Method} {annotations : List ParamAnnotation}

theorem outlined_nil : Outlined [] [] where
  keys := rfl
  unpatterned := by
    intro p hp
    cases hp

theorem outlined_some {k : String × Location} (hk : p.key = k) (h : p.pattern = none) :
    Outlined [k] (some p).toList where
  keys := by
    rw [← hk]
    rfl
  unpatterned := by
    intro q hq
    rw [List.mem_singleton.1 hq]
    exact h

theorem Outlined.append (h : Outlined ks ps) (h' : Outlined ls qs) :
    Outlined (ks ++ ls) (ps ++ qs) where
  keys := by rw [List.map_append, h.keys, h'.keys]
  unpatterned := by
    intro p hp
    rcases List.mem_append.1 hp with hp | hp
    · exact h.unpatterned p hp
    · exact h'.unpatterned p hp

theorem Parameter.outlined_completeArray {k : String × Location} (hk : p.key = k)
    (h : p.pattern = none) : Outlined [k] (some p.completeArray).toList := by
  unfold completeArray
  split
  · exact outlined_some hk h
  · exact outlined_some hk h

theorem bodyParameter_outlined {schema : Option Schema} {info : Option ParameterInfo} :
    (bodyParameter m schema t info).Answers fun p =>
      Outlined (bodyKeys schema t info) p.toList := by
  unfold bodyParameter bodyKeys
  simp only [Logged.bind_eq]
  cases schema with
  | some s =>
    rw [if_neg (by simp)]
    exact .pure (outlined_some rfl rfl)
  | none =>
    have hproperty : (Build.lift (m.property t)).Answers fun p => m.property t = .ok p :=
      fun _ h => h
    refine hproperty.bind fun property hp => ?_
    cases property with
    | none =>
      rw [Models.isVoid_of_property hp]
      exact .pure outlined_nil
    | some s =>
      have hvoid : t.leaf.isVoid = false := by
        cases hvoid : t.leaf.isVoid with
        | false => rfl
        | true =>
          rw [Models.property_eq, if_pos hvoid] at hp
          cases hp
      rw [hvoid]
      exact Logged.Answers.after fun _ =>
        Logged.Answers.after fun _ => .pure (outlined_some rfl rfl)

theorem leafParameter_outlined : (leafParameter m t annotations).Answers fun p =>
    Outlined (Leaf.parameter t annotations).keys p.toList := by
  unfold leafParameter Leaf.keys
  simp only [Logged.bind_eq]
  have hdocumented : (Build.lift (documented (annotations.findSome? (·.info?)) t)).Answers fun a =>
      documented (annotations.findSome? (·.info?)) t = .ok a := fun _ h => h
  refine hdocumented.bind fun answer hanswer => ?_
  obtain ⟨schema, u⟩ := answer
  rw [hanswer]
  cases annotations.findSome? (·.location?) with
  | none => exact bodyParameter_outlined
  | some place =>
    cases schema with
    | some s =>
      refine .pure ?_
      cases annotations.findSome? (·.info?) <;> exact Parameter.outlined_completeArray rfl rfl
    | none =>
      refine Logged.Answers.after fun schema => .pure ?_
      cases schema <;> cases annotations.findSome? (·.info?) <;>
        exact Parameter.outlined_completeArray rfl rfl

theorem implicitParameter_outlined {i : ImplicitParameter} :
    (implicitParameter m i).Answers fun p => Outlined i.keys p.toList := by
  unfold implicitParameter ImplicitParameter.keys
  cases Location.parse? i.location with
  | none => exact .pure outlined_nil
  | some location =>
    simp only [Logged.bind_eq]
    refine Logged.Answers.after fun schema => ?_
    by_cases hbody : location = .body
    · rw [if_pos hbody]
      exact .pure (outlined_some rfl rfl)
    · rw [if_neg hbody]
      refine .pure ?_
      cases schema with
      | none => exact outlined_some rfl rfl
      | some s => cases i.multiple <;> exact outlined_some rfl rfl

theorem operationParameters_outlined :
    (operationParameters m s method).Answers (Outlined (method.parameterKeys s)) :=
  operationParameters_sequential (sequential_answers outlined_nil Outlined.append) (fun _ => rfl)
    (fun _ _ => Build.answers_listed leafParameter_outlined) fun _ =>
      Build.answers_listed implicitParameter_outlined

/-- A method is built with the parameters that it stands for. -/
theorem buildOperation_outlined {o : Operation}
    (h : (buildOperation m s method).result = .ok (some o)) :
    Outlined (method.parameterKeys s) o.parameters :=
  buildOperation_parameters operationParameters_outlined h

/-- Patterns come from paths only: what a method declares has none. -/
theorem buildOperation_unpatterned {o : Operation}
    (h : (buildOperation m s method).result = .ok (some o)) : Unpatterned o.parameters :=
  (buildOperation_outlined h).unpatterned

end Apidoc
