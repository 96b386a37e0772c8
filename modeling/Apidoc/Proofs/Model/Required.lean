import Apidoc.Proofs.Table
import Apidoc.Source.Definitions
import Mathlib

namespace Apidoc

namespace Field

/-- The fields of a record under their names. Of several fields of one name the last one counts. -/
def byName (fields : List Field) : Table Field :=
  .ofList (fields.map fun f => (f.name, f))

/-- The names of the fields that are not optional. -/
def required (fields : List Field) : List String :=
  (fields.filter (!·.isOptional)).map (·.name)

variable {f : Field} {fields : List Field} {key : String}

theorem keys_byName : (byName fields).keys = (fields.map (·.name)).eraseDups := by
  rw [byName, Table.keys_ofList, List.map_map]
  rfl

theorem byName_cons : (byName (f :: fields)).get? key =
    ((byName fields).get? key).or (if f.name = key then some f else none) := by
  rw [byName, byName, Table.get?_ofList, Table.get?_ofList, List.map_cons, List.reverse_cons,
    List.lookup_append]
  by_cases h : f.name = key
  · simp [h]
  · simp [h, List.lookup_cons, beq_eq_false_iff_ne.2 (Ne.symm h)]

theorem mem_of_byName (h : (byName fields).get? key = some f) : f ∈ fields ∧ f.name = key := by
  obtain ⟨g, hg, heq⟩ := List.mem_map.1 (Table.mem_entries_ofList (Table.mem_entries_of_get? h))
  cases heq
  exact ⟨hg, rfl⟩

theorem exists_byName (hf : f ∈ fields) : ∃ g, (byName fields).get? f.name = some g := by
  apply Option.isSome_iff_exists.1
  have hkey : f.name ∈ (byName fields).keys := by
    rw [keys_byName, List.mem_eraseDups]
    exact List.mem_map_of_mem hf
  exact Table.contains_iff.2 hkey

theorem mem_required :
    key ∈ required fields ↔ ∃ f ∈ fields, f.isOptional = false ∧ f.name = key := by
  simp [required, and_assoc]

theorem required_cons : required (f :: fields) =
    if f.isOptional then required fields else f.name :: required fields := by
  cases h : f.isOptional <;> simp [required, h]

theorem nodup_required_iff : (required fields).Nodup ↔ fields.Pairwise fun f g =>
    f.isOptional = false → g.isOptional = false → f.name ≠ g.name := by
  rw [required, List.Nodup, List.pairwise_map, List.pairwise_filter]
  simp

/-- What is required are the properties whose field is not optional. -/
def RequiresExactly (fields : List Field) : Prop :=
  ∀ key f, (byName fields).get? key = some f → (key ∈ required fields ↔ f.isOptional = false)

theorem RequiresExactly.of_cons (h : RequiresExactly (f :: fields)) : RequiresExactly fields := by
  intro key g hg
  have hall : (byName (f :: fields)).get? key = some g := by rw [byName_cons, hg, Option.some_or]
  obtain ⟨hmem, hname⟩ := mem_of_byName hg
  constructor
  · intro hkey
    apply (h key g hall).1
    obtain ⟨f', hf', hrequired⟩ := mem_required.1 hkey
    exact mem_required.2 ⟨f', List.mem_cons_of_mem _ hf', hrequired⟩
  · intro hoptional
    exact mem_required.2 ⟨g, hmem, hoptional, hname⟩

/-- Where names are required once and just for the fields of their properties, the field of a
property that is required is the only one of its name from there on. -/
theorem ne_of_requiresExactly (hnodup : (required (f :: fields)).Nodup)
    (h : RequiresExactly (f :: fields)) (hf : f.isOptional = false) :
    ∀ g ∈ fields, f.name ≠ g.name := by
  intro g hg hname
  obtain ⟨last, hlast⟩ := exists_byName hg
  obtain ⟨hmem, hlastName⟩ := mem_of_byName hlast
  have hall : (byName (f :: fields)).get? g.name = some last := by
    rw [byName_cons, hlast, Option.some_or]
  have hrequired : g.name ∈ required (f :: fields) :=
    mem_required.2 ⟨f, List.mem_cons_self, hf, hname⟩
  have hoptional : last.isOptional = false := (h _ last hall).1 hrequired
  rw [required_cons, hf, if_neg Bool.false_ne_true, List.nodup_cons] at hnodup
  exact hnodup.1 (mem_required.2 ⟨last, hmem, hoptional, hlastName.trans hname.symm⟩)

theorem pairwise_of_requiresExactly (hnodup : (required fields).Nodup)
    (h : RequiresExactly fields) :
    fields.Pairwise fun f g => f.isOptional = false → f.name ≠ g.name := by
  induction fields with
  | nil => exact .nil
  | cons f fields ih =>
    have hrest : (required fields).Nodup := by
      rw [required_cons] at hnodup
      split at hnodup
      · exact hnodup
      · exact hnodup.of_cons
    exact .cons (fun g hg hf => ne_of_requiresExactly hnodup h hf g hg) (ih hrest h.of_cons)

theorem requiresExactly_of_pairwise
    (h : fields.Pairwise fun f g => f.isOptional = false → f.name ≠ g.name) :
    RequiresExactly fields := by
  induction h with
  | nil => exact nofun
  | @cons f fields hf _ ih =>
    intro key g hg
    rw [byName_cons] at hg
    cases hrest : (byName fields).get? key with
    | some last =>
      rw [hrest, Option.some_or] at hg
      cases hg
      obtain ⟨hmem, hname⟩ := mem_of_byName hrest
      rw [← ih key g hrest, required_cons]
      split
      · rfl
      · rename_i hoptional
        have hne : key ≠ f.name := by
          rintro rfl
          exact hf g hmem (Bool.eq_false_iff.2 hoptional) hname.symm
        rw [List.mem_cons, or_iff_right hne]
    | none =>
      rw [hrest, Option.none_or] at hg
      split at hg
      · cases hg
        rename_i hname
        have hnot : key ∉ required fields := by
          intro hkey
          obtain ⟨f', hf', _, rfl⟩ := mem_required.1 hkey
          obtain ⟨last, hlast⟩ := exists_byName hf'
          rw [hrest] at hlast
          cases hlast
        rw [required_cons]
        split
        · rename_i hoptional
          simp [hnot, hoptional]
        · rename_i hoptional
          simp [hname, Bool.eq_false_iff.2 hoptional]
      · cases hg

/-- Names are required once and just for the fields of their properties exactly where no field that
is not optional has the name of a later one. -/
theorem requiresExactly_iff : (required fields).Nodup ∧ RequiresExactly fields ↔
    fields.Pairwise fun f g => f.isOptional = false → f.name ≠ g.name := by
  refine ⟨fun h => pairwise_of_requiresExactly h.1 h.2, fun h => ⟨?_, ?_⟩⟩
  · exact nodup_required_iff.2 (h.imp fun hne hf _ => hne hf)
  · exact requiresExactly_of_pairwise h

end Field

namespace Models

variable {m : Models} {name : String} {fields : List Field}

theorem properties_record : (m.schemaOf ⟨name, .record fields⟩).properties =
    some ((Field.byName fields).map m.fieldSchema) := by
  rw [Field.byName, Table.map_ofList, List.map_map]
  rfl

theorem required_record : (m.schemaOf ⟨name, .record fields⟩).required =
    if (Field.required fields).isEmpty then none else some (Field.required fields) :=
  rfl

theorem keys_properties_record : ∃ properties,
    (m.schemaOf ⟨name, .record fields⟩).properties = some properties ∧
      properties.keys = (fields.map (·.name)).eraseDups := by
  refine ⟨_, properties_record, ?_⟩
  rw [← Field.keys_byName, Table.keys, Table.keys, Table.map, List.map_map]
  rfl

theorem required_record_ne_nil : (m.schemaOf ⟨name, .record fields⟩).required ≠ some [] := by
  rw [required_record]
  split
  · intro hnil
    cases hnil
  · rename_i hne
    intro hnil
    exact hne (List.isEmpty_iff.2 (Option.some.inj hnil))

theorem getD_required_record :
    (m.schemaOf ⟨name, .record fields⟩).required.getD [] = Field.required fields := by
  rw [required_record]
  split
  · rename_i hempty
    exact (List.isEmpty_iff.1 hempty).symm
  · rfl

/-- The object model of a record has the names of the documented fields as its properties. What it
requires, if anything, are the names of the fields that are not optional: each of them once exactly
where no two such fields have one name, and just for properties whose own field is not optional
exactly where, besides, no such field has the name of a later one. -/
theorem record_required_iff (m : Models) (name : String) (fields : List Field) :
    let schema := m.schemaOf ⟨name, .record fields⟩
    let required := schema.required.getD []
    (∃ properties, schema.properties = some properties ∧
      properties.keys = (fields.map (·.name)).eraseDups) ∧
    schema.required ≠ some [] ∧
    (∀ key, key ∈ required ↔ ∃ f ∈ fields, f.isOptional = false ∧ f.name = key) ∧
    (required.Nodup ↔ fields.Pairwise fun f g =>
      f.isOptional = false → g.isOptional = false → f.name ≠ g.name) ∧
    (required.Nodup ∧ (∀ key f, (Field.byName fields).get? key = some f →
      (key ∈ required ↔ f.isOptional = false)) ↔
      fields.Pairwise fun f g => f.isOptional = false → f.name ≠ g.name) := by
  intro schema required
  have hrequired : required = Field.required fields := getD_required_record
  rw [hrequired]
  exact ⟨keys_properties_record, required_record_ne_nil, fun _ => Field.mem_required,
    Field.nodup_required_iff, Field.requiresExactly_iff⟩

/-- A field that is declared for each of two platforms is required twice. -/
theorem cage_required_twice :
    (ModelSource.parse?
      "struct Cage \x7b #[cfg(unix)] size: i64, #[cfg(windows)] size: i32 \x7d").map (fun source =>
        source.definitions.map fun d => ((ofSources [source]).schemaOf d).required) =
      some [some ["size", "size"]] ∧ ¬["size", "size"].Nodup := by
  constructor
  · decide +kernel
  · decide

end Models

end Apidoc
