import Apidoc.Error
import Apidoc.Schema

namespace Apidoc

/-- A documented field; without a type it can hold anything. -/
structure Field where
  name : String
  type : Option TypeRef

def Field.isOptional (f : Field) : Bool :=
  match f.type with
  | some t => t.isOptional
  | none => false

inductive DefinitionKind where
  | record (fields : List Field)
  | choice (variants : List String)

/-- A model: a record of fields or a choice of names. -/
structure Definition where
  name : String
  kind : DefinitionKind

/-- The types of the fields of a record, in order. -/
def Definition.fieldTypes (d : Definition) : List TypeRef :=
  match d.kind with
  | .record fields => fields.filterMap (·.type)
  | .choice _ => []

/-- The types that every document can describe without a model. -/
inductive Primitive where
  | string
  | i8
  | i16
  | i32
  | i64
  | i128
  | u8
  | u16
  | u32
  | u64
  | u128
  | f32
  | f64
  | bool
  | char
  | uuid
  | date
  | dateTime
  | file
  deriving DecidableEq

namespace Primitive

/-- The names of the primitive types. -/
def names : List (String × Primitive) :=
  [("String", string), ("str", string), ("Cow", string), ("i8", i8), ("i16", i16), ("i32", i32),
    ("i64", i64), ("isize", i64), ("i128", i128), ("u8", u8), ("u16", u16), ("u32", u32),
    ("u64", u64), ("usize", u64), ("u128", u128), ("f32", f32), ("f64", f64), ("bool", bool),
    ("char", char), ("Uuid", uuid), ("NaiveDate", date), ("Date", date), ("DateTime", dateTime),
    ("NaiveDateTime", dateTime), ("OffsetDateTime", dateTime), ("SystemTime", dateTime),
    ("File", file)]

def ofName? (name : String) : Option Primitive :=
  (names.find? (·.1 == name)).map (·.2)

def schema : Primitive → Schema
  | string | char => .scalar "string" none
  | i8 | i16 | i32 | u8 | u16 | u32 => .scalar "integer" (some "int32")
  | i64 | i128 | u64 | u128 => .scalar "integer" (some "int64")
  | f32 => .scalar "number" (some "float")
  | f64 => .scalar "number" (some "double")
  | bool => .scalar "boolean" none
  | uuid => .scalar "string" (some "uuid")
  | date => .scalar "string" (some "date")
  | dateTime => .scalar "string" (some "date-time")
  | file => .scalar "file" none

end Primitive

/-- The known definitions, the first of each name. -/
structure Models where
  definitions : List Definition := []

/-- What a type name stands for. -/
inductive Resolved where
  | primitive (p : Primitive)
  | model (d : Definition)

namespace Models

def definition? (m : Models) (name : String) : Option Definition :=
  m.definitions.find? (·.name == name)

/-- Adds a definition unless its name is known. -/
def add (m : Models) (d : Definition) : Models :=
  if (m.definition? d.name).isSome then m else ⟨m.definitions ++ [d]⟩

/-- The first definition of each name. -/
def ofDefinitions (ds : List Definition) : Models :=
  ds.foldl add {}

/-- The names that are defined again after their first definition. -/
def duplicates (ds : List Definition) : List String :=
  (ds.foldl (fun (m, names) d =>
    (add m d, if (m.definition? d.name).isSome then names ++ [d.name] else names))
    (({} : Models), ([] : List String))).2

/-- Primitive names are never taken for models. -/
def resolve? (m : Models) (name : String) : Option Resolved :=
  match Primitive.ofName? name with
  | some p => some (.primitive p)
  | none => (m.definition? name).map .model

/-- The inline schema of a name: a scalar, or a reference to a model. -/
def named? (m : Models) (name : String) : Option Schema :=
  (m.resolve? name).map fun
    | .primitive p => p.schema
    | .model d => .ofModel d.name

/-- Wraps a schema in containers, the outermost first. -/
def wrapAll (kinds : List Container) (s : Schema) : Schema :=
  kinds.foldr Container.wrap s

/-- The inline schema of a type; the empty type has none. -/
def property (m : Models) (t : TypeRef) : Except Error (Option Schema) :=
  let (kinds, leaf) := t.core
  if leaf.isVoid then .ok none
  else match m.named? leaf.name with
    | some s => .ok (some (wrapAll kinds s))
    | none => .error (.unresolved leaf)

/-- The schema of a field. What is not known is some object. -/
def fieldSchema (m : Models) (f : Field) : Schema :=
  match f.type with
  | none => .object
  | some t =>
    let (kinds, leaf) := t.core
    if leaf.isVoid then .object else wrapAll kinds ((m.named? leaf.name).getD .object)

/-- The schema that defines a model. -/
def schemaOf (m : Models) (d : Definition) : Schema :=
  match d.kind with
  | .record fields =>
    let required := (fields.filter (!·.isOptional)).map (·.name)
    { type := some "object"
      properties := some (Table.ofList (fields.map fun f => (f.name, m.fieldSchema f)))
      required := if required.isEmpty then none else some required }
  | .choice variants => { type := some "string", enumValues := some variants }

/-- The model that a type itself names. -/
def own (m : Models) (t : TypeRef) : Except Error (Table Schema) :=
  let t := t.unwrapped
  if t.isVoid ∨ t.container?.isSome then .ok {}
  else match m.resolve? t.name with
    | some (.primitive _) => .ok {}
    | some (.model d) => .ok ⟨[(d.name, m.schemaOf d)]⟩
    | none => .error (.unresolved t)

/-- How many definitions are not among the found ones. -/
def missing (m : Models) (found : Table Schema) : Nat :=
  (m.definitions.filter fun d => !found.contains d.name).length

end Models

namespace TypeRef

mutual

def size : TypeRef → Nat
  | ⟨_, args⟩ => 1 + sizeAll args

def sizeAll : List TypeRef → Nat
  | [] => 0
  | a :: as => a.size + sizeAll as

end

theorem sizeAll_append (as bs : List TypeRef) : sizeAll (as ++ bs) = sizeAll as + sizeAll bs := by
  induction as with
  | nil => simp [sizeAll]
  | cons a as ih => simp [sizeAll, ih, Nat.add_assoc]

mutual

theorem size_core_le : (t : TypeRef) → t.core.2.size ≤ t.size
  | ⟨name, args⟩ => by
    unfold core
    split
    · rename_i c hc
      split at hc
      · have := size_coreOfOnly_le args c hc
        simp only [size]; omega
      · simp at hc
    · split
      · rename_i kinds leaf _ hl
        have := size_coreOfLast_le args (kinds, leaf) hl
        simp only [size] at *; omega
      · simp

theorem size_coreOfOnly_le : (args : List TypeRef) → (c : List Container × TypeRef) →
    coreOfOnly args = some c → c.2.size ≤ sizeAll args
  | [], _, h => by simp [coreOfOnly] at h
  | [a], c, h => by
    simp only [coreOfOnly, Option.some.injEq] at h
    subst h
    have := size_core_le a
    simp only [sizeAll]; omega
  | _ :: _ :: _, _, h => by simp [coreOfOnly] at h

theorem size_coreOfLast_le : (args : List TypeRef) → (c : List Container × TypeRef) →
    coreOfLast args = some c → c.2.size ≤ sizeAll args
  | [], _, h => by simp [coreOfLast] at h
  | [a], c, h => by
    simp only [coreOfLast, Option.some.injEq] at h
    subst h
    have := size_core_le a
    simp only [sizeAll]; omega
  | _ :: a :: as, c, h => by
    have := size_coreOfLast_le (a :: as) c (by simpa [coreOfLast] using h)
    simp only [sizeAll] at *; omega

end

theorem sizeAll_args_leaf_lt (t : TypeRef) : sizeAll t.leaf.args < t.size := by
  have h := size_core_le t
  rw [leaf]
  generalize t.core.2 = l at h
  obtain ⟨n, args⟩ := l
  exact Nat.lt_of_lt_of_le (by simp only [size]; omega) h

end TypeRef

namespace Models

theorem mem_of_resolve? {m : Models} {name : String} {d : Definition}
    (h : m.resolve? name = some (.model d)) : d ∈ m.definitions := by
  unfold resolve? at h
  split at h
  · simp at h
  · simp only [Option.map_eq_some_iff, Resolved.model.injEq, exists_eq_right] at h
    exact List.mem_of_find?_eq_some h

theorem length_filter_lt {α : Type} {p q : α → Bool} (h : ∀ x, q x = true → p x = true) {x : α}
    (hp : p x = true) (hq : q x = false) :
    (l : List α) → x ∈ l → (l.filter q).length < (l.filter p).length
  | [], hx => by simp at hx
  | y :: l, hx => by
    have mono : (l.filter q).length ≤ (l.filter p).length := by
      simp only [← List.countP_eq_length_filter]
      exact List.countP_mono_left fun z _ => h z
    rcases List.mem_cons.1 hx with rfl | hx
    · simp only [List.filter_cons, hp, hq, if_true, List.length_cons]
      exact Nat.lt_succ_of_le mono
    · have ih := length_filter_lt h hp hq l hx
      cases hqy : q y with
      | true => simp [hqy, h y hqy, ih]
      | false =>
        cases hpy : p y with
        | true => simp [hqy, hpy]; omega
        | false => simp [hqy, hpy, ih]

theorem missing_putNew_lt {m : Models} {found : Table Schema} {d : Definition} (s : Schema)
    (hd : d ∈ m.definitions) (hf : found.contains d.name = false) :
    m.missing (found.putNew d.name s) < m.missing found := by
  have hk : ∀ j, (found.putNew d.name s).contains j = (found.contains j || d.name == j) := by
    intro j
    simp only [Table.contains, Table.get?_putNew]
    by_cases h : d.name = j <;> simp [h]
  apply length_filter_lt (x := d) _ _ _ _ hd
  · intro e he
    simp only [hk, Bool.not_or, Bool.and_eq_true] at he
    exact he.1
  · simp [hf]
  · simp [hk]

/-- Adds every model that can be reached from the pending types, depth first. -/
def reach (m : Models) (pending : List TypeRef) (found : Table Schema) : Table Schema :=
  match pending with
  | [] => found
  | t :: rest =>
    have := t.sizeAll_args_leaf_lt
    if t.leaf.isVoid then m.reach rest found
    else match h : m.resolve? t.leaf.name with
      | some (.model d) =>
        if hf : found.contains d.name then m.reach (t.leaf.args ++ rest) found
        else
          have := missing_putNew_lt (m.schemaOf d) (mem_of_resolve? h) (Bool.eq_false_iff.2 hf)
          m.reach (d.fieldTypes ++ (t.leaf.args ++ rest)) (found.putNew d.name (m.schemaOf d))
      | _ => m.reach (t.leaf.args ++ rest) found
termination_by (m.missing found, TypeRef.sizeAll pending)
decreasing_by
  · simp only [TypeRef.sizeAll]
    apply Prod.Lex.right
    omega
  · apply Prod.Lex.right
    simp only [TypeRef.sizeAll, TypeRef.sizeAll_append]; omega
  · exact Prod.Lex.left _ _ (by assumption)
  · apply Prod.Lex.right
    simp only [TypeRef.sizeAll, TypeRef.sizeAll_append]; omega

/-- Every model that can be reached from a type. -/
def reachable (m : Models) (t : TypeRef) : Except Error (Table Schema) :=
  if t.leaf.isVoid ∨ (m.resolve? t.leaf.name).isSome then .ok (m.reach [t] {})
  else .error (.unresolved t.leaf)

end Models

end Apidoc
