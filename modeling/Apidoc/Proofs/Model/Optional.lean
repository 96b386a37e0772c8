import Apidoc.Operation.Build
import Apidoc.Proofs.Model.Mentions

namespace Apidoc

namespace TypeRef

def optional (t : TypeRef) : TypeRef :=
  ⟨"Option", [t]⟩

variable {t u : TypeRef}

theorem unwrapped_optional (t : TypeRef) : t.optional.unwrapped = t.unwrapped := by
  rw [optional, unwrapped, if_pos rfl]

theorem core_optional (t : TypeRef) : t.optional.core = t.core :=
  core_option t

theorem leaf_optional (t : TypeRef) : t.optional.leaf = t.leaf := by
  rw [leaf, leaf, core_optional]

theorem filter_optional (t : TypeRef) : (some t.optional).filter (!·.isVoid) = some t.optional :=
  rfl

theorem filter_of_isVoid (h : t.isVoid = true) : (some t).filter (!·.isVoid) = none := by
  simp [h]

theorem filter_of_not_isVoid (h : t.isVoid = false) : (some t).filter (!·.isVoid) = some t := by
  simp [h]

/-- A type whose name is neither that of a container nor the optional one holds itself. -/
theorem core_of_name (hoption : t.name ≠ "Option")
    (hcontainer : Container.ofTypeName? t.name = none) : t.core = ([], t) := by
  obtain ⟨name, args⟩ := t
  rw [core, if_neg hoption]
  simp only [hcontainer]

theorem unwrapped_of_name (hoption : t.name ≠ "Option") : t.unwrapped = t := by
  obtain ⟨name, args⟩ := t
  unfold unwrapped
  split
  · rename_i heq
    cases heq
    rw [if_neg hoption]
  · rfl

theorem name_of_isVoid (h : t.isVoid = true) :
    t.name = "()" ∨ t.name = "Void" ∨ t.name = "void" := by
  simpa [isVoid, or_assoc] using h

theorem name_ne_of_isVoid (h : t.isVoid = true) : t.name ≠ "Option" := by
  intro hoption
  have hname := name_of_isVoid h
  rw [hoption] at hname
  exact absurd hname (by decide)

theorem unwrapped_of_isVoid (h : t.isVoid = true) : t.unwrapped = t :=
  unwrapped_of_name (name_ne_of_isVoid h)

theorem core_of_isVoid (h : t.isVoid = true) : t.core = ([], t) := by
  apply core_of_name (name_ne_of_isVoid h)
  rcases name_of_isVoid h with hname | hname | hname <;> rw [hname] <;> decide

theorem leaf_of_isVoid (h : t.isVoid = true) : t.leaf = t := by
  rw [leaf, core_of_isVoid h]

end TypeRef

namespace Models

variable {m : Models} {t u : TypeRef}

theorem property_optional (t : TypeRef) : m.property t.optional = m.property t := by
  rw [property_eq, property_eq, TypeRef.leaf_optional, TypeRef.core_optional]

theorem property_of_isVoid (h : t.isVoid = true) : m.property t = .ok none := by
  rw [property_eq, TypeRef.leaf_of_isVoid h, if_pos h]

theorem own_of_isVoid (h : t.isVoid = true) : m.own t = .ok {} := by
  rw [own, TypeRef.unwrapped_of_isVoid h]
  exact if_pos (.inl h)

theorem own_optional (t : TypeRef) : m.own t.optional = m.own t := by
  rw [own, own, TypeRef.unwrapped_optional]

theorem reach_nil (found : Table Schema) : m.reach [] found = found := by
  rw [reach]

theorem reach_cons (t : TypeRef) (rest : List TypeRef) (found : Table Schema) :
    m.reach (t :: rest) found =
      if t.leaf.isVoid then m.reach rest found
      else match m.resolve? t.leaf.name with
        | some (.model d) =>
          if found.contains d.name then m.reach (t.leaf.args ++ rest) found
          else m.reach (d.fieldTypes ++ (t.leaf.args ++ rest))
            (found.putNew d.name (m.schemaOf d))
        | _ => m.reach (t.leaf.args ++ rest) found := by
  rw [reach]
  split
  · rfl
  · split
    · rename_i d hd
      simp only [hd, dite_eq_ite]
    · rename_i hd
      split
      · rename_i d hd'
        exact (hd d hd').elim
      · rfl

theorem reachable_of_isVoid (h : t.isVoid = true) : m.reachable t = .ok {} := by
  have hleaf : t.leaf.isVoid = true := by rw [TypeRef.leaf_of_isVoid h, h]
  rw [reachable, if_pos (.inl hleaf), reach_cons, if_pos hleaf, reach_nil]

theorem reachable_optional (t : TypeRef) : m.reachable t.optional = m.reachable t := by
  rw [reachable, reachable, reach_cons, reach_cons, TypeRef.leaf_optional]

end Models

namespace ResourceSet

theorem bean?_optional (s : ResourceSet) (t : TypeRef) : s.bean? t.optional = s.bean? t := by
  rw [bean?, bean?, TypeRef.unwrapped_optional]

end ResourceSet

theorem isIgnored_of_isVoid (s : ResourceSet) {t : TypeRef} (h : t.isVoid = true) :
    isIgnored s t = true := by
  rw [isIgnored, TypeRef.unwrapped_of_isVoid h, h]
  rfl

theorem isIgnored_optional (s : ResourceSet) (t : TypeRef) :
    isIgnored s t.optional = isIgnored s t := by
  rw [isIgnored, isIgnored, TypeRef.unwrapped_optional]

end Apidoc
