import Apidoc.Proofs.Model.Reach
import Apidoc.Proofs.Schema.Mentions

namespace Apidoc

namespace TypeRef

variable {t : TypeRef}

theorem container?_option (inner : TypeRef) : (⟨"Option", [inner]⟩ : TypeRef).container? =
    inner.container? := by
  simp [container?, unwrapped]

theorem core_option (inner : TypeRef) : (⟨"Option", [inner]⟩ : TypeRef).core = inner.core := by
  simp [core, coreOfOnly]

theorem unwrapped_self (h : ∀ name inner, t = ⟨name, [inner]⟩ → False) : t.unwrapped = t := by
  rw [unwrapped]
  exact h

theorem unwrapped_unwrapped : t.unwrapped.unwrapped = t.unwrapped := by
  induction t using unwrapped.induct with
  | case1 inner ih =>
    rw [unwrapped, if_pos rfl]
    exact ih
  | case2 name inner hn => simp [unwrapped, hn]
  | case3 t h => rw [unwrapped_self h, unwrapped_self h]

theorem isVoid_of_unwrapped (h : t.unwrapped.isVoid = false) : t.isVoid = false := by
  induction t using unwrapped.induct with
  | case1 inner ih => simp [isVoid]
  | case2 name inner hn => simpa [unwrapped, hn] using h
  | case3 t hne => rwa [unwrapped_self hne] at h

theorem container?_unwrapped : t.unwrapped.container? = t.container? := by
  rw [container?, container?, unwrapped_unwrapped]

theorem coreOfOnly_eq_none {name : String} {args : List TypeRef}
    (h : ∀ name' inner, (⟨name, args⟩ : TypeRef) = ⟨name', [inner]⟩ → False) :
    coreOfOnly args = none := by
  cases args with
  | nil => rfl
  | cons a args =>
    cases args with
    | nil => exact (h _ a rfl).elim
    | cons b args => rfl

theorem coreOfLast_eq {args : List TypeRef} : coreOfLast args = args.getLast?.map core := by
  induction args with
  | nil => rfl
  | cons a args ih =>
    cases args with
    | nil => rfl
    | cons b args =>
      rw [coreOfLast, ih]
      rfl

/-- Below the optional layers, a type that is no container holds itself. -/
theorem core_of_no_container (h : t.container? = none) : t.core = ([], t.unwrapped) := by
  induction t using unwrapped.induct with
  | case1 inner ih =>
    rw [container?_option] at h
    rw [core_option, ih h]
    simp [unwrapped]
  | case2 name inner hn =>
    have hname : Container.ofTypeName? name = none := by
      cases hc : Container.ofTypeName? name with
      | none => rfl
      | some kind => simp [container?, unwrapped, hn, hc] at h
    simp [core, unwrapped, hn, hname]
  | case3 t hne =>
    obtain ⟨name, args⟩ := t
    rw [container?, unwrapped_self hne] at h
    rw [core, unwrapped_self hne, coreOfOnly_eq_none hne, ite_self, coreOfLast_eq]
    cases hc : Container.ofTypeName? name with
    | none => rfl
    | some kind =>
      cases hl : args.getLast? with
      | none => rfl
      | some element => simp [hc, hl] at h

/-- A container holds what its elements finally hold. -/
theorem core_of_container {kind : Container} {element : TypeRef}
    (h : t.container? = some (kind, element)) :
    t.core = (kind :: element.core.1, element.core.2) := by
  induction t using unwrapped.induct with
  | case1 inner ih =>
    rw [container?_option] at h
    rw [core_option, ih h]
  | case2 name inner hn =>
    cases hc : Container.ofTypeName? name with
    | none => simp [container?, unwrapped, hn, hc] at h
    | some kind' =>
      simp only [container?, unwrapped, if_neg hn, hc, List.getLast?_singleton] at h
      cases h
      simp [core, hn, hc, coreOfLast]
  | case3 t hne =>
    obtain ⟨name, args⟩ := t
    rw [container?, unwrapped_self hne] at h
    rw [core, coreOfOnly_eq_none hne, ite_self, coreOfLast_eq]
    cases hc : Container.ofTypeName? name with
    | none => simp [hc] at h
    | some kind' =>
      cases hl : args.getLast? with
      | none => simp [hl] at h
      | some last =>
        simp only [hc, hl] at h
        cases h
        rfl

theorem leaf_of_no_container (h : t.container? = none) : t.leaf = t.unwrapped := by
  rw [leaf, core_of_no_container h]

end TypeRef

theorem Primitive.not_mentions (p : Primitive) {name : String} : ¬p.schema.Mentions name := by
  cases p <;> exact Schema.not_mentions_scalar

namespace Models

variable {m : Models} {t : TypeRef} {d : Definition} {name n : String} {s : Schema}

theorem mentions_named (h : m.named? name = some s) :
    s.Mentions n ↔ ∃ d, m.resolve? name = some (.model d) ∧ d.name = n := by
  obtain ⟨r, hr, rfl⟩ := Option.map_eq_some_iff.1 h
  rw [hr]
  cases r with
  | primitive p => simp [Primitive.not_mentions]
  | model d => simp [Schema.mentions_ofModel]

theorem mentions_wrapAll {kinds : List Container} :
    (wrapAll kinds s).Mentions n ↔ s.Mentions n := by
  induction kinds with
  | nil => exact Iff.rfl
  | cons c kinds ih => exact Schema.mentions_wrap.trans ih

theorem property_eq : m.property t =
    if t.leaf.isVoid then .ok none
    else match m.named? t.leaf.name with
      | some s => .ok (some (wrapAll t.core.1 s))
      | none => .error (.unresolved t.leaf) := rfl

theorem mentions_property (h : m.property t = .ok (some s)) :
    t.leaf.isVoid = false ∧
      (s.Mentions n ↔ ∃ d, m.resolve? t.leaf.name = some (.model d) ∧ d.name = n) := by
  rw [property_eq] at h
  split at h
  · cases h
  · rename_i hv
    split at h
    · rename_i s' hs
      cases h
      exact ⟨by simpa using hv, mentions_wrapAll.trans (mentions_named hs)⟩
    · cases h

theorem isVoid_of_property (h : m.property t = .ok none) : t.leaf.isVoid = true := by
  rw [property_eq] at h
  split at h
  · assumption
  · split at h <;> cases h

theorem reaches_of_mentions_property (h : m.property t = .ok (some s)) (hn : s.Mentions n) :
    m.ReachesName t n := by
  obtain ⟨hv, hiff⟩ := mentions_property h
  obtain ⟨d, hd, hname⟩ := hiff.1 hn
  exact ⟨d, .leaf hv hd, hname⟩

theorem mentions_fieldSchema {f : Field} (h : (m.fieldSchema f).Mentions n) :
    ∃ t, f.type = some t ∧ m.ReachesName t n := by
  unfold fieldSchema at h
  split at h
  · exact (Schema.not_mentions_object h).elim
  · rename_i t ht
    simp only at h
    split at h
    · exact (Schema.not_mentions_object h).elim
    · rename_i hv
      rw [mentions_wrapAll] at h
      cases hs : m.named? t.core.2.name with
      | none =>
        rw [hs] at h
        exact (Schema.not_mentions_object h).elim
      | some s =>
        rw [hs] at h
        obtain ⟨d, hd, hname⟩ := (mentions_named hs).1 h
        exact ⟨t, ht, d, .leaf (Bool.eq_false_iff.2 hv) hd, hname⟩

/-- The schema of a definition mentions what the types of its fields reach. -/
theorem mentions_schemaOf (h : (m.schemaOf d).Mentions n) :
    ∃ f ∈ d.fieldTypes, m.ReachesName f n := by
  obtain ⟨name, kind⟩ := d
  cases kind with
  | choice variants => rcases h with h | ⟨h, _⟩ | ⟨h, _⟩ | ⟨h, _, _⟩ <;> cases h
  | record fields =>
    rcases h with h | ⟨h, _⟩ | ⟨h, _⟩ | ⟨h, he, hn⟩
    · cases h
    · cases h
    · cases h
    · cases h
      obtain ⟨f, hf, rfl⟩ := List.mem_map.1 (Table.mem_entries_ofList he)
      obtain ⟨t, ht, hr⟩ := mentions_fieldSchema hn
      exact ⟨t, List.mem_filterMap.2 ⟨f, hf, ht⟩, hr⟩

theorem Reaches.of_mentions (h : m.Reaches t d) (hn : (m.schemaOf d).Mentions n) :
    m.ReachesName t n := by
  obtain ⟨f, hf, e, he, hname⟩ := mentions_schemaOf hn
  exact ⟨e, h.through hf he, hname⟩

/-- A type itself names at most one model, which is then what it finally holds. -/
theorem own_eq_ok {table : Table Schema} (h : m.own t = .ok table) :
    table = {} ∨ ∃ d, t.leaf.isVoid = false ∧ m.resolve? t.leaf.name = some (.model d) ∧
      table = ⟨[(d.name, m.schemaOf d)]⟩ := by
  unfold own at h
  simp only at h
  split at h
  · cases h
    exact .inl rfl
  · rename_i hno
    have hleaf : t.leaf = t.unwrapped := by
      apply TypeRef.leaf_of_no_container
      rw [← TypeRef.container?_unwrapped]
      exact Option.not_isSome_iff_eq_none.1 fun hc => hno (.inr hc)
    rw [hleaf]
    split at h
    · cases h
      exact .inl rfl
    · rename_i d hd
      cases h
      exact .inr ⟨d, by simpa using fun hv => hno (.inl hv), hd, rfl⟩
    · cases h

end Models

end Apidoc
