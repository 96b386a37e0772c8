import Apidoc.Proofs.Operation.Responses

namespace Apidoc

/-- Sets with the same beans, in which the same types are resources. -/
structure ResourceSet.BuildsAlike (s s' : ResourceSet) : Prop where
  beans : ∀ t, s.bean? t = s'.bean? t
  routable : ∀ t, (s.routable? t).isSome = (s'.routable? t).isSome

namespace ResourceSet

variable {models : Models} {s s' : ResourceSet} {openNames : List String} {m : Method} {t : TypeRef}
  {annotations : List ParamAnnotation}

theorem leaves_eq : s.leaves openNames t annotations =
    if isSkipped annotations then []
    else if annotations.any (·.isBean) then
      match s.bean? t with
      | none => [.warning (.unknownBean t)]
      | some b =>
        if openNames.contains b.name then [.warning (.recursiveBean b.name)]
        else s.fieldLeaves (openNames ++ [b.name]) b.fields
    else [.parameter t annotations] := by
  rw [leaves]
  split
  · rfl
  · split
    · split
      · rename_i hb
        rw [hb]
      · rename_i b hb
        simp only [hb]
        by_cases ho : openNames.contains b.name = true
        · rw [dif_pos ho, if_pos ho]
        · rw [dif_neg ho, if_neg ho]
    · rfl

theorem leaves_single (hshown : isSkipped annotations = false)
    (hsingle : annotations.any (·.isBean) = false) :
    s.leaves openNames t annotations = [.parameter t annotations] := by
  rw [leaves_eq, hshown, hsingle]
  rfl

theorem fieldLeaves_eq {fields : List BeanField} : s.fieldLeaves openNames fields =
    fields.flatMap fun f =>
      if f.annotations.isEmpty then [] else s.leaves openNames f.type f.annotations := by
  induction fields with
  | nil => rw [fieldLeaves]; rfl
  | cons f fields ih => rw [fieldLeaves, ih, List.flatMap_cons]

namespace BuildsAlike

theorem leaves (h : s.BuildsAlike s') :
    s.leaves openNames t annotations = s'.leaves openNames t annotations := by
  -- The number of closed beans falls with every bean that is opened.
  induction hn : s.closedBeans openNames using Nat.strongRecOn
    generalizing openNames t annotations with
  | _ n ih =>
    rw [leaves_eq, leaves_eq, ← h.beans]
    cases hb : s.bean? t with
    | none => rfl
    | some b =>
      by_cases ho : openNames.contains b.name = true
      · simp only [ho, if_true]
      · have hlt := closedBeans_lt hb (Bool.eq_false_iff.2 ho)
        have hfields : s.fieldLeaves (openNames ++ [b.name]) b.fields =
            s'.fieldLeaves (openNames ++ [b.name]) b.fields := by
          rw [fieldLeaves_eq, fieldLeaves_eq]
          congr 1
          funext f
          rw [ih _ (hn ▸ hlt) rfl]
        simp only [hfields]

theorem isIgnored (h : s.BuildsAlike s') (t : TypeRef) : isIgnored s t = isIgnored s' t := by
  rw [Apidoc.isIgnored, Apidoc.isIgnored, h.routable]

theorem methodParameters (h : s.BuildsAlike s')
    {declared : List (TypeRef × List ParamAnnotation)} :
    methodParameters models s declared = methodParameters models s' declared := by
  induction declared with
  | nil => rfl
  | cons p rest ih =>
    rw [Apidoc.methodParameters, Apidoc.methodParameters, ih, declaredParameters,
      declaredParameters, h.leaves]

theorem buildVisible (h : s.BuildsAlike s') :
    buildVisible models s m = buildVisible models s' m := by
  have hclassify (t : TypeRef) : classify models s t = classify models s' t := by
    rw [classify, classify, h.isIgnored]
  have hprimary (headers : Option (Table Schema)) :
      primaryResponses models s m headers = primaryResponses models s' m headers := by
    rw [primaryResponses, primaryResponses, primaryResponse_eq, primaryResponse_eq, hclassify,
      bodyModels, bodyModels, h.isIgnored]
  have hparameters : operationParameters models s m = operationParameters models s' m := by
    rw [operationParameters, operationParameters, h.methodParameters]
  rw [Apidoc.buildVisible, Apidoc.buildVisible, hparameters]
  simp only [hprimary]

theorem buildOperation (h : s.BuildsAlike s') :
    buildOperation models s m = buildOperation models s' m := by
  by_cases hidden : m.IsHidden
  · rw [buildOperation_hidden hidden, buildOperation_hidden hidden]
  · rw [buildOperation_visible hidden, buildOperation_visible hidden, h.buildVisible]

end BuildsAlike

end ResourceSet

section Single

variable {m : Models} {s : ResourceSet} {t : TypeRef} {annotations : List ParamAnnotation}

theorem leafParameters_single : leafParameters m [.parameter t annotations] =
    (leafParameter m t annotations).bind fun p => pure p.toList := by
  simp only [leafParameters, Logged.bind_eq, Logged.pure_bind, List.append_nil]

theorem declaredParameters_single (hshown : isSkipped annotations = false)
    (hsingle : annotations.any (·.isBean) = false) :
    declaredParameters m s t annotations =
      (leafParameter m t annotations).bind fun p => pure p.toList := by
  rw [declaredParameters, ResourceSet.leaves_single hshown hsingle, leafParameters_single]

end Single

end Apidoc
