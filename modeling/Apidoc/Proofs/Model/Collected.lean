import Apidoc.Proofs.Model.Mentions
import Apidoc.Proofs.Model.Optional
import Mathlib

namespace Apidoc

/-- The references of a schema and of its parts. -/
inductive Schema.Refers (ref : String) : Schema → Prop
  | reference {s : Schema} (h : s.reference = some ref) : Refers ref s
  | items {s t : Schema} (h : s.items = some t) (ht : Refers ref t) : Refers ref s
  | values {s t : Schema} (h : s.additionalProperties = some t) (ht : Refers ref t) : Refers ref s
  | property {s : Schema} {t : Table Schema} {e : String × Schema} (h : s.properties = some t)
    (he : e ∈ t.entries) (ht : Refers ref e.2) : Refers ref s

/-- A schema whose references all name models. -/
def Schema.NamesModels (s : Schema) : Prop :=
  ∀ ref, s.Refers ref → ∃ name, ref = modelsPrefix ++ name ∧ s.Mentions name

namespace Models

/-- A type uses what its elements use, if it is a container, or else the definition that its name
stands for, with all that the fields of this definition and its own arguments use. Optional layers
do not count, and the empty type uses nothing. -/
inductive Uses (m : Models) : TypeRef → Definition → Prop
  | element {t e : TypeRef} {kind : Container} {d : Definition} (hv : t.unwrapped.isVoid = false)
    (hc : t.container? = some (kind, e)) (h : Uses m e d) : Uses m t d
  | model {t : TypeRef} {d : Definition} (hv : t.unwrapped.isVoid = false)
    (hc : t.container? = none) (hd : m.resolve? t.unwrapped.name = some (.model d)) : Uses m t d
  | field {t f : TypeRef} {d e : Definition} (hv : t.unwrapped.isVoid = false)
    (hc : t.container? = none) (hd : m.resolve? t.unwrapped.name = some (.model d))
    (hf : f ∈ d.fieldTypes) (h : Uses m f e) : Uses m t e
  | argument {t a : TypeRef} {d : Definition} (hv : t.unwrapped.isVoid = false)
    (hc : t.container? = none) (ha : a ∈ t.unwrapped.args) (h : Uses m a d) : Uses m t d

/-- Descending into types one after the other. A definition is added before its fields are
descended into, and those of a known one are not. -/
inductive Collects (m : Models) : List TypeRef → Table Schema → Table Schema → Prop
  | done {found : Table Schema} : Collects m [] found found
  | void {t : TypeRef} {rest : List TypeRef} {found result : Table Schema}
    (hv : t.unwrapped.isVoid = true) (hrest : Collects m rest found result) :
    Collects m (t :: rest) found result
  | element {t e : TypeRef} {kind : Container} {rest : List TypeRef}
    {found middle result : Table Schema} (hv : t.unwrapped.isVoid = false)
    (hc : t.container? = some (kind, e)) (he : Collects m [e] found middle)
    (hrest : Collects m rest middle result) : Collects m (t :: rest) found result
  | known {t : TypeRef} {rest : List TypeRef} {found middle result : Table Schema}
    (hv : t.unwrapped.isVoid = false) (hc : t.container? = none)
    (hd : ∀ d, m.resolve? t.unwrapped.name = some (.model d) → found.contains d.name = true)
    (ha : Collects m t.unwrapped.args found middle) (hrest : Collects m rest middle result) :
    Collects m (t :: rest) found result
  | new {t : TypeRef} {d : Definition} {rest : List TypeRef}
    {found inner middle result : Table Schema} (hv : t.unwrapped.isVoid = false)
    (hc : t.container? = none) (hd : m.resolve? t.unwrapped.name = some (.model d))
    (hnew : found.contains d.name = false)
    (hf : Collects m d.fieldTypes (found.putNew d.name (m.schemaOf d)) inner)
    (ha : Collects m t.unwrapped.args inner middle) (hrest : Collects m rest middle result) :
    Collects m (t :: rest) found result

/-- Collecting from one type, where a name that stands for nothing is an error. Behind the type
itself and the elements of its containers such names are passed over. -/
inductive CollectsFrom (m : Models) : TypeRef → Except Error (Table Schema) → Prop
  | element {t e : TypeRef} {kind : Container} {answer : Except Error (Table Schema)}
    (hv : t.unwrapped.isVoid = false) (hc : t.container? = some (kind, e))
    (h : CollectsFrom m e answer) : CollectsFrom m t answer
  | unresolved {t : TypeRef} (hv : t.unwrapped.isVoid = false) (hc : t.container? = none)
    (hn : m.resolve? t.unwrapped.name = none) :
    CollectsFrom m t (.error (.unresolved t.unwrapped))
  | found {t : TypeRef} {result : Table Schema} (hc : t.container? = none)
    (hd : t.unwrapped.isVoid = true ∨ (m.resolve? t.unwrapped.name).isSome)
    (h : Collects m [t] {} result) : CollectsFrom m t (.ok result)

end Models

namespace TypeRef

variable {t e : TypeRef} {kind : Container}

theorem isVoid_of_container (h : t.container? = some (kind, e)) : t.unwrapped.isVoid = false := by
  rw [Bool.eq_false_iff]
  intro hv
  rw [container?] at h
  rcases name_of_isVoid hv with hname | hname | hname <;> simp [hname, Container.ofTypeName?] at h

theorem leaf_of_isVoid_unwrapped (h : t.unwrapped.isVoid = true) : t.leaf = t.unwrapped := by
  apply leaf_of_no_container
  rw [Option.eq_none_iff_forall_ne_some]
  intro container hc
  rw [isVoid_of_container hc] at h
  cases h

theorem leaf_of_container (h : t.container? = some (kind, e)) : t.leaf = e.leaf := by
  rw [leaf, core_of_container h]
  rfl

/-- What holds of types that are no containers, and of a container as soon as it holds of its
elements, holds of all. -/
theorem container_induction {C : TypeRef → Prop} (base : ∀ t, t.container? = none → C t)
    (element : ∀ t kind e, t.container? = some (kind, e) → C e → C t) (t : TypeRef) : C t := by
  -- The containers around what a type finally holds lose one with every element.
  induction hkinds : t.core.1 generalizing t with
  | nil =>
    apply base t
    rw [Option.eq_none_iff_forall_ne_some]
    intro container hc
    rw [core_of_container hc] at hkinds
    cases hkinds
  | cons kind kinds ih =>
    cases hc : t.container? with
    | none => exact base t hc
    | some container =>
      obtain ⟨kind', e⟩ := container
      rw [core_of_container hc] at hkinds
      exact element t kind' e hc (ih e (List.cons.inj hkinds).2)

end TypeRef

namespace Models

variable {m : Models} {t u : TypeRef} {d : Definition} {ts rest : List TypeRef}
  {found middle result : Table Schema}

section Uses

theorem reaches_congr (h : t.leaf = u.leaf) (hd : m.Reaches t d) : m.Reaches u d := by
  cases hd with
  | leaf hv hd => exact .leaf (h ▸ hv) (h ▸ hd)
  | argument hv ha hd => exact .argument (h ▸ hv) (h ▸ ha) hd
  | field hv hd hf he => exact .field (h ▸ hv) (h ▸ hd) hf he

/-- Behind its containers, a type uses what it finally holds uses. -/
theorem uses_of_leaf (h : ∀ u, u.container? = none → u.unwrapped = t.leaf → m.Uses u d) :
    m.Uses t d := by
  induction t using TypeRef.container_induction with
  | base t hc => exact h t hc (TypeRef.leaf_of_no_container hc).symm
  | element t kind e hc ih =>
    rw [TypeRef.leaf_of_container hc] at h
    exact .element (TypeRef.isVoid_of_container hc) hc (ih h)

theorem uses_iff : m.Uses t d ↔ m.Reaches t d := by
  constructor
  · intro h
    induction h with
    | element _ hc _ ih => exact reaches_congr (TypeRef.leaf_of_container hc).symm ih
    | model hv hc hd =>
      rw [← TypeRef.leaf_of_no_container hc] at hv hd
      exact .leaf hv hd
    | field hv hc hd hf _ ih =>
      rw [← TypeRef.leaf_of_no_container hc] at hv hd
      exact .field hv hd hf ih
    | argument hv hc ha _ ih =>
      rw [← TypeRef.leaf_of_no_container hc] at hv ha
      exact .argument hv ha ih
  · intro h
    induction h with
    | leaf hv hd =>
      refine uses_of_leaf fun u hc hleaf => ?_
      rw [← hleaf] at hv hd
      exact .model hv hc hd
    | argument hv ha _ iha =>
      refine uses_of_leaf fun u hc hleaf => ?_
      rw [← hleaf] at hv ha
      exact .argument hv hc ha iha
    | field hv hd hf _ ihf =>
      refine uses_of_leaf fun u hc hleaf => ?_
      rw [← hleaf] at hv hd
      exact .field hv hc hd hf ihf

end Uses

section Collects

theorem Collects.append (h : m.Collects ts found middle) (hrest : m.Collects rest middle result) :
    m.Collects (ts ++ rest) found result := by
  induction h with
  | done => exact hrest
  | void hv _ ih => exact .void hv (ih hrest)
  | element hv hc he _ _ ih => exact .element hv hc he (ih hrest)
  | known hv hc hd ha _ _ ih => exact .known hv hc hd ha (ih hrest)
  | new hv hc hd hnew hf ha _ _ _ ih => exact .new hv hc hd hnew hf ha (ih hrest)

theorem exists_collects_of_append (h : m.Collects (ts ++ rest) found result) :
    ∃ middle, m.Collects ts found middle ∧ m.Collects rest middle result := by
  induction ts generalizing found with
  | nil => exact ⟨found, .done, h⟩
  | cons t ts ih =>
    cases h with
    | void hv hrest =>
      obtain ⟨middle, hts, hlast⟩ := ih hrest
      exact ⟨middle, .void hv hts, hlast⟩
    | element hv hc he hrest =>
      obtain ⟨middle, hts, hlast⟩ := ih hrest
      exact ⟨middle, .element hv hc he hts, hlast⟩
    | known hv hc hd ha hrest =>
      obtain ⟨middle, hts, hlast⟩ := ih hrest
      exact ⟨middle, .known hv hc hd ha hts, hlast⟩
    | new hv hc hd hnew hf ha hrest =>
      obtain ⟨middle, hts, hlast⟩ := ih hrest
      exact ⟨middle, .new hv hc hd hnew hf ha hts, hlast⟩

/-- Descending into a container is descending into what it finally holds. -/
theorem collects_of_leaf (h : ∀ u : TypeRef, u.container? = none → u.leaf = t.leaf →
    m.Collects [u] found result) : m.Collects [t] found result := by
  induction t using TypeRef.container_induction with
  | base t hc => exact h t hc rfl
  | element t kind e hc ih =>
    rw [TypeRef.leaf_of_container hc] at h
    exact .element (TypeRef.isVoid_of_container hc) hc (ih h) .done

end Collects

section Reach

theorem reach_void (hv : t.leaf.isVoid = true) :
    m.reach (t :: rest) found = m.reach rest found := by
  rw [reach_cons, if_pos hv]

theorem reach_known (hv : t.leaf.isVoid = false)
    (hd : ∀ d, m.resolve? t.leaf.name = some (.model d) → found.contains d.name = true) :
    m.reach (t :: rest) found = m.reach (t.leaf.args ++ rest) found := by
  rw [reach_cons, if_neg (by simp [hv])]
  split
  · rename_i d hmodel
    rw [if_pos (hd d hmodel)]
  · rfl

theorem reach_new (hv : t.leaf.isVoid = false) (hd : m.resolve? t.leaf.name = some (.model d))
    (hnew : found.contains d.name = false) :
    m.reach (t :: rest) found =
      m.reach (d.fieldTypes ++ (t.leaf.args ++ rest)) (found.putNew d.name (m.schemaOf d)) := by
  rw [reach_cons, if_neg (by simp [hv]), hd]
  simp [hnew]

/-- The cases of the search, by the first of the types. -/
theorem reach_induction {C : List TypeRef → Table Schema → Prop} (done : ∀ found, C [] found)
    (void : ∀ t rest found, t.leaf.isVoid = true → C rest found → C (t :: rest) found)
    (known : ∀ t rest found, t.leaf.isVoid = false →
      (∀ d, m.resolve? t.leaf.name = some (.model d) → found.contains d.name = true) →
        C (t.leaf.args ++ rest) found → C (t :: rest) found)
    (new : ∀ t rest found d, t.leaf.isVoid = false → m.resolve? t.leaf.name = some (.model d) →
      found.contains d.name = false →
        C (d.fieldTypes ++ (t.leaf.args ++ rest)) (found.putNew d.name (m.schemaOf d)) →
          C (t :: rest) found)
    (ts : List TypeRef) (found : Table Schema) : C ts found := by
  induction ts, found using reach.induct m with
  | case1 found => exact done found
  | case2 found t rest _ hv ih => exact void t rest found hv ih
  | case3 found t rest _ hv d hd hf ih =>
    refine known t rest found (by simpa using hv) (fun e he => ?_) ih
    rw [hd] at he
    cases he
    exact hf
  | case4 found t rest _ hv d hd hf _ ih =>
    exact new t rest found d (by simpa using hv) hd (by simpa using hf) ih
  | case5 found t rest _ hv hne ih =>
    exact known t rest found (by simpa using hv) (fun d hd => (hne d hd).elim) ih

theorem reach_append (ts rest : List TypeRef) (found : Table Schema) :
    m.reach (ts ++ rest) found = m.reach rest (m.reach ts found) := by
  induction ts, found using reach_induction (m := m) with
  | done found => rw [reach_nil, List.nil_append]
  | void t ts found hv ih => rw [List.cons_append, reach_void hv, reach_void hv, ih]
  | known t ts found hv hd ih =>
    rw [List.cons_append, reach_known hv hd, reach_known hv hd, ← ih, List.append_assoc]
  | new t ts found d hv hd hnew ih =>
    rw [List.cons_append, reach_new hv hd hnew, reach_new hv hd hnew, ← ih, List.append_assoc,
      List.append_assoc]

theorem reach_congr (h : t.leaf = u.leaf) : m.reach [t] found = m.reach [u] found := by
  rw [reach_cons, reach_cons, h]

/-- Nested descents and the search over a list of pending types find the same in the same order. -/
theorem eq_reach_of_collects (h : m.Collects ts found result) : result = m.reach ts found := by
  induction h with
  | done => rw [reach_nil]
  | void hv _ ih =>
    rw [← TypeRef.leaf_of_isVoid_unwrapped hv] at hv
    rw [ih, reach_void hv]
  | element _ hc _ _ ihe ih =>
    rw [ih, ihe, ← reach_congr (TypeRef.leaf_of_container hc), ← reach_append,
      List.singleton_append]
  | known hv hc hd _ _ iha ih =>
    rw [← TypeRef.leaf_of_no_container hc] at hv hd iha
    rw [ih, iha, reach_known hv hd, reach_append]
  | new hv hc hd hnew _ _ _ ihf iha ih =>
    rw [← TypeRef.leaf_of_no_container hc] at hv hd iha
    rw [ih, iha, ihf, reach_new hv hd hnew, reach_append, reach_append]

theorem collects_reach (m : Models) (ts : List TypeRef) (found : Table Schema) :
    m.Collects ts found (m.reach ts found) := by
  induction ts, found using reach_induction (m := m) with
  | done found =>
    rw [reach_nil]
    exact .done
  | void t ts found hv ih =>
    rw [reach_void hv]
    refine Collects.append (collects_of_leaf fun u hc hleaf => ?_ : m.Collects [t] found found) ih
    rw [← hleaf, TypeRef.leaf_of_no_container hc] at hv
    exact .void hv .done
  | known t ts found hv hd ih =>
    obtain ⟨middle, ha, hrest⟩ := exists_collects_of_append ih
    rw [reach_known hv hd]
    refine Collects.append (collects_of_leaf fun u hc hleaf => ?_ : m.Collects [t] _ middle) hrest
    rw [← hleaf, TypeRef.leaf_of_no_container hc] at hv hd ha
    exact .known hv hc hd ha .done
  | new t ts found d hv hd hnew ih =>
    obtain ⟨inner, hf, hargs⟩ := exists_collects_of_append ih
    obtain ⟨middle, ha, hrest⟩ := exists_collects_of_append hargs
    rw [reach_new hv hd hnew]
    refine Collects.append (collects_of_leaf fun u hc hleaf => ?_ : m.Collects [t] _ middle) hrest
    rw [← hleaf, TypeRef.leaf_of_no_container hc] at hv hd ha
    exact .new hv hc hd hnew hf ha .done

theorem reachable_congr (h : t.leaf = u.leaf) : m.reachable t = m.reachable u := by
  rw [reachable, reachable, h, reach_congr h]

/-- Collecting from a type ends, with the one answer that the search gives. -/
theorem collectsFrom_iff {answer : Except Error (Table Schema)} :
    m.CollectsFrom t answer ↔ answer = m.reachable t := by
  constructor
  · intro h
    induction h with
    | element _ hc _ ih => rw [ih, reachable_congr (TypeRef.leaf_of_container hc)]
    | unresolved hv hc hn =>
      rw [reachable, TypeRef.leaf_of_no_container hc, if_neg (by simp [hv, hn])]
    | found hc hd h =>
      rw [reachable, TypeRef.leaf_of_no_container hc, if_pos hd, eq_reach_of_collects h]
  · rintro rfl
    induction t using TypeRef.container_induction with
    | base t hc =>
      rw [reachable, TypeRef.leaf_of_no_container hc]
      split
      · rename_i hd
        exact .found hc hd (collects_reach m [t] {})
      · rename_i hd
        obtain ⟨hv, hn⟩ := not_or.1 hd
        exact .unresolved (by simpa using hv) hc (by simpa using hn)
    | element t kind e hc ih =>
      rw [reachable_congr (TypeRef.leaf_of_container hc)]
      exact .element (TypeRef.isVoid_of_container hc) hc ih

end Reach

end Models

namespace Schema

variable {s : Schema} {ref : String}

theorem namesModels_ofModel {name : String} : (ofModel name).NamesModels := by
  intro ref h
  refine ⟨name, ?_, mentions_ofModel.2 rfl⟩
  rcases h with h | ⟨h, _⟩ | ⟨h, _⟩ | ⟨h, _, _⟩ <;> cases h
  rfl

theorem namesModels_scalar {type : String} {format : Option String} :
    (scalar type format).NamesModels := by
  rintro ref (h | ⟨h, _⟩ | ⟨h, _⟩ | ⟨h, _, _⟩) <;> cases h

theorem namesModels_object : object.NamesModels := by
  rintro ref (h | ⟨h, _⟩ | ⟨h, _⟩ | ⟨h, _, _⟩) <;> cases h

theorem refers_of_wrap {kind : Container} (h : (kind.wrap s).Refers ref) : s.Refers ref := by
  cases kind with
  | list | set =>
    rcases h with hr | ⟨hi, ht⟩ | ⟨ha, _⟩ | ⟨hp, _, _⟩
    · cases hr
    · cases hi
      exact ht
    · cases ha
    · cases hp
  | map =>
    rcases h with hr | ⟨hi, _⟩ | ⟨ha, ht⟩ | ⟨hp, _, _⟩
    · cases hr
    · cases hi
    · cases ha
      exact ht
    · cases hp

theorem NamesModels.wrap (h : s.NamesModels) (kind : Container) : (kind.wrap s).NamesModels := by
  intro ref href
  obtain ⟨name, rfl, hname⟩ := h ref (refers_of_wrap href)
  exact ⟨name, rfl, mentions_wrap.2 hname⟩

end Schema

namespace Models

variable {m : Models} {t : TypeRef} {d : Definition} {name : String} {s : Schema}
  {table : Table Schema}

section References

theorem namesModels_named (h : m.named? name = some s) : s.NamesModels := by
  obtain ⟨resolved, _, rfl⟩ := Option.map_eq_some_iff.1 h
  cases resolved with
  | primitive p => cases p <;> exact Schema.namesModels_scalar
  | model d => exact Schema.namesModels_ofModel

theorem namesModels_wrapAll (h : s.NamesModels) (kinds : List Container) :
    (wrapAll kinds s).NamesModels := by
  induction kinds with
  | nil => exact h
  | cons kind kinds ih => exact ih.wrap kind

theorem namesModels_property (h : m.property t = .ok (some s)) : s.NamesModels := by
  rw [property_eq] at h
  split at h
  · cases h
  · split at h
    · rename_i named hnamed
      cases h
      exact namesModels_wrapAll (namesModels_named hnamed) _
    · cases h

theorem namesModels_fieldSchema (f : Field) : (m.fieldSchema f).NamesModels := by
  rw [fieldSchema]
  split
  · exact Schema.namesModels_object
  · rename_i t _
    simp only
    split
    · exact Schema.namesModels_object
    · apply namesModels_wrapAll
      cases hnamed : m.named? t.core.2.name with
      | none => exact Schema.namesModels_object
      | some named => exact namesModels_named hnamed

theorem namesModels_schemaOf (m : Models) (d : Definition) : (m.schemaOf d).NamesModels := by
  obtain ⟨name, kind⟩ := d
  intro ref h
  cases kind with
  | choice variants => rcases h with h | ⟨h, _⟩ | ⟨h, _⟩ | ⟨h, _, _⟩ <;> cases h
  | record fields =>
    rcases h with h | ⟨h, _⟩ | ⟨h, _⟩ | ⟨h, he, hr⟩
    · cases h
    · cases h
    · cases h
    · cases h
      obtain ⟨f, _, hf⟩ := List.mem_map.1 (Table.mem_entries_ofList he)
      rw [← hf] at hr
      obtain ⟨n, rfl, hn⟩ := namesModels_fieldSchema f ref hr
      exact ⟨n, rfl, .property rfl he (hf ▸ hn)⟩

end References

section Reachable

theorem mem_keys_reachable_iff (h : m.reachable t = .ok table) :
    name ∈ table.keys ↔ ∃ d, m.Uses t d ∧ d.name = name := by
  constructor
  · intro hname
    obtain ⟨e, he, rfl⟩ := List.mem_map.1 hname
    obtain ⟨d, hd, rfl⟩ := (mem_reachable_iff h).1 he
    exact ⟨d, uses_iff.2 hd, rfl⟩
  · rintro ⟨d, hd, rfl⟩
    exact Table.mem_keys_of_mem ((mem_reachable_iff h).2 ⟨d, uses_iff.1 hd, rfl⟩)

theorem get?_reachable (h : m.reachable t = .ok table) (hd : m.Uses t d) :
    table.get? d.name = some (m.schemaOf d) := by
  have hkey : d.name ∈ table.keys := (mem_keys_reachable_iff h).2 ⟨d, hd, rfl⟩
  obtain ⟨s, hs⟩ := Option.isSome_iff_exists.1 (Table.contains_iff.2 hkey)
  obtain ⟨e, he, hentry⟩ := (mem_reachable_iff h).1 (Table.mem_entries_of_get? hs)
  obtain ⟨hname, rfl⟩ := Prod.mk.inj hentry
  rw [hs, (uses_iff.1 hd).eq_of_name he hname]

theorem mem_keys_of_reachesName (h : m.reachable t = .ok table) (hn : m.ReachesName t name) :
    name ∈ table.keys := by
  obtain ⟨d, hd, rfl⟩ := hn
  exact (mem_keys_reachable_iff h).2 ⟨d, uses_iff.2 hd, rfl⟩

/-- Collecting the models of a type ends, also where definitions refer to themselves. If it succeeds
it gives exactly the definitions that the type uses, each under its name with its own schema, and
every reference in these schemas and in the inline schema of the type leads to one of them. -/
theorem reachable_exact (m : Models) (t : TypeRef) :
    (∀ answer, m.CollectsFrom t answer ↔ answer = m.reachable t) ∧
      ∀ table, m.reachable t = .ok table →
        (∀ name, name ∈ table.keys ↔ ∃ d, m.Uses t d ∧ d.name = name) ∧
        (∀ d, m.Uses t d → table.get? d.name = some (m.schemaOf d)) ∧
        (∀ name s ref, table.get? name = some s → s.Refers ref →
          ∃ key ∈ table.keys, ref = Schema.modelsPrefix ++ key) ∧
        (∀ s ref, m.property t = .ok (some s) → s.Refers ref →
          ∃ key ∈ table.keys, ref = Schema.modelsPrefix ++ key) := by
  refine ⟨fun _ => collectsFrom_iff, fun table h =>
    ⟨fun _ => mem_keys_reachable_iff h, fun _ => get?_reachable h, ?_, ?_⟩⟩
  · intro name s ref hs href
    obtain ⟨d, hd, hentry⟩ := (mem_reachable_iff h).1 (Table.mem_entries_of_get? hs)
    obtain ⟨_, rfl⟩ := Prod.mk.inj hentry
    obtain ⟨key, rfl, hkey⟩ := namesModels_schemaOf m d ref href
    exact ⟨key, mem_keys_of_reachesName h (hd.of_mentions hkey), rfl⟩
  · intro s ref hs href
    obtain ⟨key, rfl, hkey⟩ := namesModels_property hs ref href
    exact ⟨key, mem_keys_of_reachesName h (reaches_of_mentions_property hs hkey), rfl⟩

end Reachable

section Litter

def litterType : TypeRef := ⟨"Vec", [⟨"Option", [⟨"Pet", []⟩]⟩]⟩

def petDefinition : Definition where
  name := "Pet"
  kind := .record [⟨"owner", some ⟨"Owner", []⟩⟩, ⟨"litter", some litterType⟩]

def ownerDefinition : Definition where
  name := "Owner"
  kind := .record [⟨"pets", some ⟨"HashMap", [⟨"Badge", []⟩, ⟨"Pet", []⟩]⟩⟩,
    ⟨"note", some ⟨"Memo", []⟩⟩]

/-- Pets and owners refer to one another, and pets to their own kind. -/
def petModels : Models where
  definitions := [petDefinition, ⟨"Badge", .choice ["number"]⟩, ownerDefinition]

/-- Neither what a map is keyed by is collected, nor a name that stands for nothing. -/
theorem keys_litterType : (petModels.reach [litterType] {}).keys = ["Pet", "Owner"] := by
  have hlitter : litterType.leaf = ⟨"Pet", []⟩ := by cbv
  have hpets : TypeRef.leaf ⟨"HashMap", [⟨"Badge", []⟩, ⟨"Pet", []⟩]⟩ = ⟨"Pet", []⟩ := by cbv
  have howner : TypeRef.leaf ⟨"Owner", []⟩ = ⟨"Owner", []⟩ := by cbv
  have hmemo : TypeRef.leaf ⟨"Memo", []⟩ = ⟨"Memo", []⟩ := by cbv
  have hpetModel : petModels.resolve? "Pet" = some (.model petDefinition) := by cbv
  have hownerModel : petModels.resolve? "Owner" = some (.model ownerDefinition) := by cbv
  have hmemoModel : petModels.resolve? "Memo" = none := by cbv
  simp [reach_cons, reach_nil, hlitter, hpets, howner, hmemo, hpetModel, hownerModel, hmemoModel,
    TypeRef.isVoid, Definition.fieldTypes, petDefinition, ownerDefinition, Table.contains,
    Table.get?_putNew, Table.keys_putNew]

theorem litterType_exact : ∃ table, petModels.reachable litterType = .ok table ∧
    table.keys = ["Pet", "Owner"] ∧
    ∀ name s ref, table.get? name = some s → s.Refers ref →
      ∃ key ∈ table.keys, ref = Schema.modelsPrefix ++ key := by
  have h : petModels.reachable litterType = .ok (petModels.reach [litterType] {}) :=
    reachable_eq_ok_iff.2 ⟨.inr (by cbv), rfl⟩
  exact ⟨_, h, keys_litterType, ((reachable_exact petModels litterType).2 _ h).2.2.1⟩

end Litter

end Models

end Apidoc
