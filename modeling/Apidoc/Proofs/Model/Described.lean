import Apidoc.Proofs.Model.Mentions

namespace Apidoc

def TypeRef.isMap (t : TypeRef) : Bool :=
  t.container?.any fun c => c.1 == .map

namespace Models

variable {m : Models} {t element : TypeRef} {kind : Container} {schema : Option Schema}

theorem own_container (h : t.container? = some (kind, element)) : m.own t = .ok {} := by
  have hsome : t.unwrapped.container?.isSome := by rw [TypeRef.container?_unwrapped, h]; rfl
  rw [own]
  exact if_pos (.inr hsome)

/-- A container is described as its elements are, with the container around it. -/
theorem property_container (h : t.container? = some (kind, element)) :
    m.property t = (m.property element).map (Option.map kind.wrap) := by
  have hcore := TypeRef.core_of_container h
  have hleaf : t.leaf = element.leaf := by rw [TypeRef.leaf, hcore]; rfl
  rw [property_eq, property_eq, hleaf, hcore]
  split
  · rfl
  · cases m.named? element.leaf.name <;> rfl

theorem property_no_container (h : t.container? = none) :
    m.property t = if t.unwrapped.isVoid then .ok none
      else match m.resolve? t.unwrapped.name with
        | some (.primitive p) => .ok (some p.schema)
        | some (.model d) => .ok (some (.ofModel d.name))
        | none => .error (.unresolved t.unwrapped) := by
  rw [property_eq, TypeRef.leaf_of_no_container h, TypeRef.core_of_no_container h, named?]
  split
  · rfl
  · cases m.resolve? t.unwrapped.name with
    | none => rfl
    | some r => cases r <;> rfl

theorem own_no_container (h : t.container? = none) (hv : t.unwrapped.isVoid = false) :
    m.own t = match m.resolve? t.unwrapped.name with
      | some (.primitive _) => .ok {}
      | some (.model d) => .ok ⟨[(d.name, m.schemaOf d)]⟩
      | none => .error (.unresolved t.unwrapped) := by
  have hno : ¬(t.unwrapped.isVoid = true ∨ t.unwrapped.container?.isSome) := by
    simp [hv, TypeRef.container?_unwrapped, h]
  rw [own]
  exact if_neg hno

theorem isScalarLike_primitive (p : Primitive) : p.schema.isScalarLike = true := by
  cases p <;> decide

/-- How a type that is not empty is described inline, with the model that it names. -/
inductive Described (m : Models) (t : TypeRef) : Option Schema → Table Schema → Prop
  | nothing : Described m t none {}
  | scalar {s : Schema} (hs : s.isScalarLike = true) (hmap : t.isMap = false) :
    Described m t (some s) {}
  | map {values : Schema} (hmap : t.isMap = true) : Described m t (some (.mapOf values)) {}
  | model {d : Definition} (hmap : t.isMap = false) :
    Described m t (some (.ofModel d.name)) ⟨[(d.name, m.schemaOf d)]⟩

theorem described_container (h : t.container? = some (kind, element))
    (hp : m.property t = .ok schema) : m.Described t schema {} := by
  have hkind : t.isMap = (kind == .map) := by rw [TypeRef.isMap, h]; rfl
  rw [property_container h] at hp
  cases hinner : m.property element with
  | error e =>
    rw [hinner] at hp
    cases hp
  | ok inner =>
    rw [hinner] at hp
    cases hp
    cases inner with
    | none => exact .nothing
    | some s =>
      cases kind with
      | list => exact .scalar rfl hkind
      | set => exact .scalar rfl hkind
      | map => exact .map hkind

/-- A type that can be described inline names a model only if it is described as that model. -/
theorem described_of_property (hv : t.unwrapped.isVoid = false)
    (hp : m.property t = .ok schema) : ∃ own, m.own t = .ok own ∧ m.Described t schema own := by
  cases hc : t.container? with
  | some container => exact ⟨{}, own_container hc, described_container hc hp⟩
  | none =>
    have hmap : t.isMap = false := by rw [TypeRef.isMap, hc]; rfl
    rw [property_no_container hc, hv, if_neg Bool.false_ne_true] at hp
    rw [own_no_container hc hv]
    cases hr : m.resolve? t.unwrapped.name with
    | none =>
      rw [hr] at hp
      cases hp
    | some r =>
      rw [hr] at hp
      cases r with
      | primitive p =>
        cases hp
        exact ⟨_, rfl, .scalar (isScalarLike_primitive p) hmap⟩
      | model d =>
        cases hp
        exact ⟨_, rfl, .model hmap⟩

theorem reachable_of_property (hp : m.property t = .ok schema) :
    m.reachable t = .ok (m.reach [t] {}) := by
  refine reachable_eq_ok_iff.2 ⟨?_, rfl⟩
  rw [property_eq] at hp
  split at hp
  · rename_i hv
    exact .inl hv
  · cases hr : m.resolve? t.leaf.name with
    | none =>
      rw [named?, hr] at hp
      cases hp
    | some r => exact .inr rfl

end Models

end Apidoc
