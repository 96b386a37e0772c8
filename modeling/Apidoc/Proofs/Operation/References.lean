import Apidoc.Proofs.Operation.Parameters
import Apidoc.Proofs.Operation.Responses

namespace Apidoc

variable {m : Models} {s : ResourceSet} {method : Method}

/-- The types of the bodies of a method. -/
def Method.bodyTypes (s : ResourceSet) (method : Method) : List TypeRef :=
  (if isIgnored s method.primaryType then [] else [method.primaryType]) ++
    ((method.responses.getD []).flatMap (·.bodyTypes) ++
      ((method.leaves s).flatMap (·.bodyTypes) ++
        (method.implicitParameters.getD []).flatMap (·.bodyTypes)))

/-- Building the operation of a method defines what the types of its bodies reach, and the bodies of
the operation mention nothing else. -/
theorem buildVisible_defines :
    Defines m (method.bodyTypes s) (buildVisible m s method) fun o =>
      ∀ name, o.BodyMentions name → m.ReachedFrom (method.bodyTypes s) name := by
  unfold buildVisible
  simp only [Logged.bind_eq]
  refine Defines.bind_none (R := fun _ => True) ?_ fun headers _ _ => ?_
  · unfold primaryHeaders
    split
    · exact .lift fun _ _ => trivial
    · exact .pure trivial
  refine primaryResponses_defines.bind fun responses _ hprimary => ?_
  refine (addResponses_defines hprimary).bind fun responses _ hresponses => ?_
  refine operationParameters_defines.bind_last fun ps _ hps => ?_
  refine .pure fun name hn => ?_
  rcases hn with ⟨e, he, hn⟩ | ⟨p, hp, hn⟩
  · refine (hresponses.orDefault e he name hn).mono fun t ht => ?_
    rw [Method.bodyTypes, ← List.append_assoc]
    exact List.mem_append_left _ ht
  · refine (hps p hp name hn).mono fun t ht => ?_
    exact List.mem_append_right _ (List.mem_append_right _ ht)

end Apidoc
