import Apidoc.Proofs.Table
import Apidoc.Schema

namespace Apidoc.Schema

/-- A schema mentions the models that it or one of its parts refers to. -/
inductive Mentions (name : String) : Schema → Prop
  | reference {s : Schema} (h : s.reference = some (modelsPrefix ++ name)) : Mentions name s
  | items {s t : Schema} (h : s.items = some t) (ht : Mentions name t) : Mentions name s
  | values {s t : Schema} (h : s.additionalProperties = some t) (ht : Mentions name t) :
    Mentions name s
  | property {s : Schema} {t : Table Schema} {e : String × Schema} (h : s.properties = some t)
    (he : e ∈ t.entries) (ht : Mentions name e.2) : Mentions name s

variable {name model : String} {s : Schema}

theorem not_mentions_scalar {type : String} {format : Option String} :
    ¬(scalar type format).Mentions name := by
  rintro (h | ⟨h, _⟩ | ⟨h, _⟩ | ⟨h, _, _⟩) <;> cases h

theorem not_mentions_object : ¬object.Mentions name := by
  rintro (h | ⟨h, _⟩ | ⟨h, _⟩ | ⟨h, _, _⟩) <;> cases h

theorem mentions_ofModel : (ofModel model).Mentions name ↔ model = name := by
  constructor
  · rintro (h | ⟨h, _⟩ | ⟨h, _⟩ | ⟨h, _, _⟩)
    · exact (String.append_right_inj _).1 (Option.some.inj h)
    all_goals cases h
  · rintro rfl
    exact .reference rfl

theorem mentions_wrap {c : Container} : (c.wrap s).Mentions name ↔ s.Mentions name := by
  cases c with
  | list | set =>
    constructor
    · rintro (h | ⟨h, ht⟩ | ⟨h, _⟩ | ⟨h, _, _⟩)
      · cases h
      · cases h; exact ht
      · cases h
      · cases h
    · exact .items rfl
  | map =>
    constructor
    · rintro (h | ⟨h, _⟩ | ⟨h, ht⟩ | ⟨h, _, _⟩)
      · cases h
      · cases h
      · cases h; exact ht
      · cases h
    · exact .values rfl

theorem mentions_wrapIn {kind : Option Container} :
    (Container.wrapIn kind s).Mentions name ↔ s.Mentions name := by
  cases kind with
  | none => exact Iff.rfl
  | some c => exact mentions_wrap

end Apidoc.Schema
