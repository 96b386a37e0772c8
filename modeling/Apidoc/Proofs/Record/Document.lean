import Apidoc.Proofs.Record.Written
import Apidoc.Record.Document

namespace Apidoc

open Value

namespace Table

variable {α : Type} {t : Table α} {k : String} {v : α} {es : List (String × α)}

theorem nodup_keys_append (h : t.keys.Nodup) :
    (if k ∈ t.keys then t.keys else t.keys ++ [k]).Nodup := by
  split
  · exact h
  · rename_i hk
    have hone : [k].Nodup := List.nodup_cons.2 ⟨List.not_mem_nil, List.nodup_nil⟩
    apply List.nodup_append.2 ⟨h, hone, ?_⟩
    intro a ha b hb hab
    exact hk (List.mem_singleton.1 hb ▸ hab ▸ ha)

theorem nodup_keys_put (h : t.keys.Nodup) : (t.put k v).keys.Nodup :=
  keys_put t k v ▸ nodup_keys_append h

theorem nodup_keys_putNew (h : t.keys.Nodup) : (t.putNew k v).keys.Nodup :=
  keys_putNew t k v ▸ nodup_keys_append h

theorem nodup_keys_putAll (h : t.keys.Nodup) : (t.putAll es).keys.Nodup := by
  induction es generalizing t with
  | nil => exact h
  | cons e es ih => exact ih (nodup_keys_put h)

theorem nodup_keys_ofList : (ofList es).keys.Nodup :=
  nodup_keys_putAll List.nodup_nil

theorem put_of_not_mem (h : k ∉ t.keys) : t.put k v = ⟨t.entries ++ [(k, v)]⟩ := by
  obtain ⟨l⟩ := t
  simp only [put, mk.injEq]
  induction l with
  | nil => rfl
  | cons e l ih =>
    have he : e.1 ≠ k := fun hk => h (hk ▸ List.mem_cons_self)
    have hl : k ∉ (⟨l⟩ : Table α).keys := fun hk => h (List.mem_cons_of_mem _ hk)
    rw [write, if_neg he, ih hl, List.cons_append]

theorem putAll_of_nodup (h : (t.keys ++ es.map (·.1)).Nodup) :
    t.putAll es = ⟨t.entries ++ es⟩ := by
  induction es generalizing t with
  | nil => simp [putAll]
  | cons e es ih =>
    obtain ⟨_, _, hdisjoint⟩ := List.nodup_append.1 h
    have hnew : e.1 ∉ t.keys := fun hk => hdisjoint _ hk _ List.mem_cons_self rfl
    have hput := put_of_not_mem (v := e.2) hnew
    have hkeys : (t.put e.1 e.2).keys ++ es.map (·.1) = t.keys ++ (e :: es).map (·.1) := by
      rw [hput]
      simp [keys]
    change (t.put e.1 e.2).putAll es = _
    rw [ih (hkeys ▸ h), hput, List.append_assoc, List.singleton_append]

/-- A table whose names are distinct is the table of its entries. -/
theorem ofList_entries (h : t.keys.Nodup) : ofList t.entries = t :=
  putAll_of_nodup h

end Table

section Tables

variable {α : Type} {read : Node → Option α} {write : α → Value} {t : Table α}

theorem Reads.mapM_entries {es : List (String × α)} (h : ∀ e ∈ es, Reads read write e.2) :
    (es.map fun e => (Node.string e.1, (write e.2).toNode)).mapM
      (fun e => do return (← e.1.text?, ← read e.2)) = some es := by
  induction es with
  | nil => rfl
  | cons e es ih =>
    have he := (h e List.mem_cons_self).back
    have hes := ih fun e' he' => h e' (List.mem_cons_of_mem _ he')
    rw [List.map_cons, List.mapM_cons, hes, he]
    rfl

theorem Reads.table (hkeys : t.keys.Nodup) (h : ∀ e ∈ t.entries, Reads read write e.2) :
    Reads (Node.tableOf? read) (Value.ofTable write) t where
  back := by
    have hentries : (Value.ofTable write t).toNode =
        .map (t.entries.map fun e => (.string e.1, (write e.2).toNode)) := by
      rw [Value.ofTable, Value.toNode, Value.toEntries_eq, Table.map, List.map_map]
      rfl
    rw [hentries, Node.tableOf?, mapM_entries h, Option.map_some, Table.ofList_entries hkeys]
  present := nofun

/-- A table that is there only when it has entries. -/
def Value.tableIfAny (write : α → Value) (t : Table α) : Option Value :=
  if t.isEmpty then none else some (ofTable write t)

theorem Value.fieldTable_eq {name : String} :
    (if t.isEmpty then [] else [(name, ofTable write t)]) =
      present [(name, tableIfAny write t)] := by
  rw [tableIfAny]
  cases t.isEmpty <;> rfl

theorem Value.readOr_table (hkeys : t.keys.Nodup) (h : ∀ e ∈ t.entries, Reads read write e.2) :
    readOr {} (Node.tableOf? read) (tableIfAny write t) = some t := by
  obtain ⟨entries⟩ := t
  cases entries with
  | nil => rfl
  | cons e entries => exact (Reads.table hkeys h).back

end Tables

section Sizes

variable {vs : List Value} {fields : List (String × Value)} {e : String × Value}

theorem Value.size_lt_object (h : e ∈ fields) :
    e.2.toNode.size < (Value.object fields).toNode.size := by
  have hentries : e.2.toNode.size ≤ Node.sizeEntries (Value.toEntries fields) := by
    induction fields with
    | nil => cases h
    | cons e' fields ih =>
      rw [Value.toEntries, Node.sizeEntries]
      rcases List.mem_cons.1 h with rfl | h
      · omega
      · have := ih h
        omega
  rw [Value.toNode, Node.size]
  omega

end Sizes

namespace Schema

/-- No properties of a schema have the same name, at any depth. -/
inductive Keyed : Schema → Prop
  | intro {s : Schema} (items : ∀ t, s.items = some t → Keyed t)
    (values : ∀ t, s.additionalProperties = some t → Keyed t)
    (names : ∀ t, s.properties = some t → t.keys.Nodup)
    (properties : ∀ t, s.properties = some t → ∀ e ∈ t.entries, Keyed e.2) : Keyed s

variable {s : Schema}

/-- The fields of a schema, with those that it does not have. -/
def layout (s : Schema) : List (String × Option Value) :=
  [("$ref", s.reference.map .string), ("type", s.type.map .string),
    ("format", s.format.map .string), ("description", s.description.map .string),
    ("items", s.items.map toValue), ("uniqueItems", flagIfSet s.uniqueItems),
    ("additionalProperties", s.additionalProperties.map toValue),
    ("properties", s.properties.map (ofTable toValue)), ("required", s.required.map strings),
    ("enum", s.enumValues.map strings)]

theorem entryValues_eq {es : List (String × Schema)} :
    entryValues es = es.map fun e => (e.1, e.2.toValue) := by
  induction es with
  | nil => rfl
  | cons e es ih => rw [entryValues, ih, List.map_cons]

theorem fieldOf_eq {name : String} {o : Option Schema} :
    fieldOf name o = present [(name, o.map toValue)] := by
  cases o <;> rfl

theorem fieldTable_eq {o : Option (Table Schema)} :
    fieldTable o = present [("properties", o.map (ofTable toValue))] := by
  cases o with
  | none => rfl
  | some t => rw [fieldTable, entryValues_eq]; rfl

theorem toValue_eq : s.toValue = .object (present s.layout) := by
  obtain ⟨reference, type, format, description, items, uniqueItems, additional, properties,
    required, enumValues⟩ := s
  rw [toValue]
  simp only [fieldOpt_eq, fieldOf_eq, fieldTable_eq, fieldFlag_eq, ← present_append]
  rfl

theorem nodup_names : names.Nodup := by decide

theorem nodup_present : ((present s.layout).map (·.1)).Nodup :=
  nodup_names.sublist keys_present

theorem Keyed.reads_within (h : s.Keyed) {depth : Nat} (hd : s.toValue.toNode.size ≤ depth) :
    Reads (ofNodeWithin depth) toValue s := by
  induction h generalizing depth with
  | @intro s _ _ hnames _ hitems hvalues hproperties =>
    rw [toValue_eq] at hd
    have hsize {k : String} {v : Value} (hv : (k, some v) ∈ s.layout) : v.toNode.size < depth :=
      Nat.lt_of_lt_of_le (size_lt_object (e := (k, v)) (mem_present hv)) hd
    obtain ⟨depth, rfl⟩ : ∃ n, depth = n + 1 :=
      Nat.exists_eq_add_one_of_ne_zero fun hzero => by simp [hzero, toNode, Node.size] at hd
    obtain ⟨reference, type, format, description, items, uniqueItems, values, properties, required,
      enumValues⟩ := s
    have hitem (t : Schema) (ht : items = some t) : Reads (ofNodeWithin depth) toValue t := by
      apply hitems t ht
      apply Nat.le_of_lt_succ
      apply hsize (k := "items")
      simp [layout, ht]
    have hvalue (t : Schema) (ht : values = some t) : Reads (ofNodeWithin depth) toValue t := by
      apply hvalues t ht
      apply Nat.le_of_lt_succ
      apply hsize (k := "additionalProperties")
      simp [layout, ht]
    have hproperty (t : Table Schema) (ht : properties = some t) :
        Reads (Node.tableOf? (ofNodeWithin depth)) (ofTable toValue) t := by
      apply Reads.table (hnames t ht)
      intro e he
      apply hproperties t ht e he
      apply Nat.le_of_lt_succ
      have htable : (ofTable toValue t).toNode.size < depth + 1 := by
        apply hsize (k := "properties")
        simp [layout, ht]
      have hentry : (e.1, e.2.toValue) ∈ (t.map toValue).entries := List.mem_map_of_mem he
      exact Nat.lt_trans (size_lt_object hentry) htable
    constructor
    · rw [toValue_eq, ofNodeWithin, Record.of?_object nodup_present]
      simp only [bind_eq_some, pure_eq_some]
      simp [find_present, names, layout, Table.find, readOptional_map hitem,
        readOptional_map hvalue, readOptional_map hproperty]
    · rw [toValue_eq]
      intro hnull
      cases hnull

theorem Keyed.reads (h : s.Keyed) : Reads ofNode? toValue s where
  back := (h.reads_within (Nat.le_refl _)).back
  present := (h.reads_within (Nat.le_refl _)).present

end Schema

namespace Info

def layout (i : Info) : List (String × Option Value) :=
  [("title", some (.string i.title)), ("version", some (.string i.version)),
    ("description", i.description.map .string)]

theorem toValue_eq {i : Info} : i.toValue = .object (present i.layout) := by
  simp only [toValue, cons_eq, fieldOpt_eq, List.append_nil, ← present_append]
  rfl

theorem reads (i : Info) : Reads ofNode? toValue i where
  back := by
    have hkeys : ((present i.layout).map (·.1)).Nodup :=
      nodup_keys_present (by simp [layout])
    rw [toValue_eq, ofNode?, Record.of?_object hkeys]
    simp [find_present, layout, Table.find]
  present := nofun

end Info

namespace Tag

def layout (t : Tag) : List (String × Option Value) :=
  [("name", some (.string t.name)), ("description", t.description.map .string)]

theorem toValue_eq {t : Tag} : t.toValue = .object (present t.layout) := by
  simp only [toValue, cons_eq, fieldOpt_eq, ← present_append]
  rfl

theorem reads (t : Tag) : Reads ofNode? toValue t where
  back := by
    have hkeys : ((present t.layout).map (·.1)).Nodup :=
      nodup_keys_present (by simp [layout])
    rw [toValue_eq, ofNode?, Record.of?_object hkeys]
    simp [find_present, layout, Table.find]
  present := nofun

end Tag

theorem Location.reads (l : Location) : Reads ofNode? (fun l => .string l.name) l where
  back := l.ofName?_name
  present := nofun

namespace Parameter

structure Keyed (p : Parameter) : Prop where
  schema : ∀ s, p.schema = some s → s.Keyed
  items : ∀ s, p.items = some s → s.Keyed

variable {p : Parameter}

def layout (p : Parameter) : List (String × Option Value) :=
  [("name", some (.string p.name)), ("in", some (.string p.location.name)),
    ("description", p.description.map .string), ("required", some (.bool p.required)),
    ("schema", p.schema.map Schema.toValue), ("type", p.type.map .string),
    ("format", p.format.map .string), ("items", p.items.map Schema.toValue),
    ("collectionFormat", p.collectionFormat.map .string), ("default", p.default.map .string),
    ("enum", p.enumValues.map strings), ("pattern", p.pattern.map .string)]

theorem toValue_eq : p.toValue = .object (present p.layout) := by
  simp only [toValue, cons_eq, fieldOpt_eq, List.append_nil, ← present_append]
  rfl

theorem Keyed.reads (h : p.Keyed) : Reads ofNode? toValue p where
  back := by
    have hkeys : ((present p.layout).map (·.1)).Nodup :=
      nodup_keys_present (by simp [layout])
    have hlocation := (Location.reads p.location).back
    have hschema := readOptional_map fun s hs => (h.schema s hs).reads
    have hitems := readOptional_map fun s hs => (h.items s hs).reads
    rw [toValue_eq, ofNode?, Record.of?_object hkeys]
    simp only [bind_eq_some, pure_eq_some]
    simp [find_present, names, layout, Table.find, hlocation, hschema, hitems, -Bool.exists_bool]
  present := nofun

end Parameter

namespace Response

structure Keyed (x : Response) : Prop where
  schema : ∀ s, x.schema = some s → s.Keyed
  names : ∀ t, x.headers = some t → t.keys.Nodup
  headers : ∀ t, x.headers = some t → ∀ e ∈ t.entries, e.2.Keyed

variable {x : Response}

def layout (x : Response) : List (String × Option Value) :=
  [("description", some (.string x.description)), ("schema", x.schema.map Schema.toValue),
    ("headers", x.headers.map (ofTable Schema.toValue))]

theorem toValue_eq : x.toValue = .object (present x.layout) := by
  simp only [toValue, cons_eq, fieldOpt_eq, ← present_append]
  rfl

theorem Keyed.reads (h : x.Keyed) : Reads ofNode? toValue x where
  back := by
    have hkeys : ((present x.layout).map (·.1)).Nodup :=
      nodup_keys_present (by simp [layout])
    have hschema := readOptional_map fun s hs => (h.schema s hs).reads
    have hheaders := readOptional_map fun t ht =>
      Reads.table (h.names t ht) fun e he => (h.headers t ht e he).reads
    rw [toValue_eq, ofNode?, Record.of?_object hkeys]
    simp [find_present, layout, Table.find, hschema, hheaders]
  present := nofun

end Response

namespace Value

/-- No fields of an object have the same name, at any depth. -/
inductive Keyed : Value → Prop
  | null : Keyed .null
  | bool (b : Bool) : Keyed (.bool b)
  | int (n : Int) : Keyed (.int n)
  | float (x : Double) : Keyed (.float x)
  | string (s : String) : Keyed (.string s)
  | list {items : List Value} (h : ∀ v ∈ items, Keyed v) : Keyed (.list items)
  | object {fields : List (String × Value)} (names : (fields.map (·.1)).Nodup)
    (h : ∀ e ∈ fields, Keyed e.2) : Keyed (.object fields)

variable {v : Value} {vs : List Value} {fields : List (String × Value)}

theorem valuesOf?_toNodes (h : ∀ v ∈ vs, Json.valueOf? v.toNode = some v) :
    Json.valuesOf? (toNodes vs) = some vs := by
  induction vs with
  | nil => rfl
  | cons v vs ih =>
    have hv := h v List.mem_cons_self
    have hvs := ih fun v' hv' => h v' (List.mem_cons_of_mem _ hv')
    rw [toNodes, Json.valuesOf?, hv, hvs]
    rfl

theorem fieldsOf?_toEntries (h : ∀ e ∈ fields, Json.valueOf? e.2.toNode = some e.2) :
    Json.fieldsOf? (toEntries fields) = some fields := by
  induction fields with
  | nil => rfl
  | cons e fields ih =>
    have he := h e List.mem_cons_self
    have hfields := ih fun e' he' => h e' (List.mem_cons_of_mem _ he')
    rw [toEntries, Json.fieldsOf?, he, hfields]
    rfl

theorem foldl_overwrite {kept : List (String × Value)}
    (h : ((kept ++ fields).map (·.1)).Nodup) :
    fields.foldl Json.overwrite kept = kept ++ fields := by
  induction fields generalizing kept with
  | nil => rw [List.foldl_nil, List.append_nil]
  | cons e fields ih =>
    have hnew : kept.any (·.1 == e.1) = false := by
      rw [List.any_eq_false]
      intro e' he' heq
      rw [List.map_append] at h
      obtain ⟨_, _, hdisjoint⟩ := List.nodup_append.1 h
      exact hdisjoint _ (List.mem_map_of_mem he') _ List.mem_cons_self (eq_of_beq heq)
    have hstep : Json.overwrite kept e = kept ++ [e] := by
      rw [Json.overwrite, hnew]
      rfl
    rw [List.foldl_cons, hstep, ih (by rwa [List.append_assoc]), List.append_assoc,
      List.singleton_append]

/-- A keyed value is the value of what it is written as. -/
theorem Keyed.valueOf? (h : v.Keyed) : Json.valueOf? v.toNode = some v := by
  induction h with
  | null | bool | int | float | string => rfl
  | list _ ih => rw [toNode, Json.valueOf?, valuesOf?_toNodes ih, Option.map_some]
  | @object fields hnames _ ih =>
    have hkept : fields.foldl Json.overwrite [] = [] ++ fields := foldl_overwrite hnames
    rw [toNode, Json.valueOf?, fieldsOf?_toEntries ih, Option.map_some, hkept, List.nil_append]

end Value

namespace Operation

/-- The names in an operation are distinct wherever they name something, and its extensions are
named like none of its fields. -/
structure Keyed (o : Operation) : Prop where
  parameters : ∀ p ∈ o.parameters, p.Keyed
  codes : o.responses.keys.Nodup
  responses : ∀ e ∈ o.responses.entries, e.2.Keyed
  security : ∀ r ∈ o.security, r.keys.Nodup
  extensionNames : o.extensions.keys.Nodup
  extensions : ∀ e ∈ o.extensions.entries, e.2.Keyed
  apart : ∀ k ∈ o.extensions.keys, k ∉ names

variable {o : Operation}

def layout (o : Operation) : List (String × Option Value) :=
  [("tags", listIfAny .string o.tags), ("summary", o.summary.map .string),
    ("description", o.description.map .string), ("operationId", some (.string o.operationId)),
    ("schemes", listIfAny .string o.schemes), ("consumes", o.consumes.map strings),
    ("produces", o.produces.map strings),
    ("parameters", listIfAny Parameter.toValue o.parameters),
    ("responses", some (ofTable Response.toValue o.responses)),
    ("security", listIfAny SecurityRequirement.toValue o.security),
    ("deprecated", flagIfSet o.deprecated)]

theorem toValue_eq : o.toValue = .object (present o.layout ++ o.extensions.entries) := by
  simp only [toValue, cons_eq, fieldOpt_eq, fieldList_eq, fieldFlag_eq, List.append_nil,
    ← present_append]
  rfl

theorem Keyed.reads (h : o.Keyed) : Reads ofNode? toValue o where
  back := by
    have hlayout : ((present o.layout).map (·.1)).Nodup := nodup_keys_present (by simp [layout])
    have hnamed : ∀ k ∈ (present o.layout).map (·.1), k ∈ names := keys_present.subset
    have hkeys : ((present o.layout ++ o.extensions.entries).map (·.1)).Nodup := by
      rw [List.map_append]
      apply List.nodup_append.2 ⟨hlayout, h.extensionNames, ?_⟩
      intro a ha b hb hab
      exact h.apart b hb (hab ▸ hnamed a ha)
    have hapart : ∀ e ∈ o.extensions.entries, e.1 ∉ names :=
      fun e he => h.apart e.1 (Table.mem_keys_of_mem he)
    have hown : (present o.layout).filter (fun e => !names.contains e.1) = [] := by
      apply List.filter_eq_nil_iff.2
      intro e he
      simpa using hnamed e.1 (List.mem_map_of_mem he)
    have hothers : o.extensions.entries.filter (fun e => !names.contains e.1) =
        o.extensions.entries := by
      apply List.filter_eq_self.2
      intro e he
      simpa using hapart e he
    have hparameters := readOr_list fun p hp => (h.parameters p hp).reads
    have hresponses := (Reads.table h.codes fun e he => (h.responses e he).reads).back
    have hsecurity : readOr [] (Node.listOf? SecurityRequirement.ofNode?)
        (listIfAny SecurityRequirement.toValue o.security) = some o.security :=
      readOr_list fun r hr => Reads.table (h.security r hr) fun _ _ => Reads.texts _
    have hextensions := fieldsOf?_toEntries fun e he => (h.extensions e he).valueOf?
    have htable := Table.ofList_entries h.extensionNames
    rw [toValue_eq, ofNode?, Record.openOf?_object hkeys, List.filter_append, hown, hothers,
      List.nil_append, Record.ofFields_append hapart]
    simp only [bind_eq_some, pure_eq_some]
    simp [find_present, names, layout, Table.find, hparameters, hresponses, hsecurity, hextensions,
      htable, -Bool.exists_bool]
  present := nofun

end Operation

namespace PathItem

def Keyed (p : PathItem) : Prop :=
  ∀ verb o, p.operation? verb = some o → o.Keyed

variable {p : PathItem}

def layout (p : PathItem) : List (String × Option Value) :=
  [("get", p.get.map Operation.toValue), ("put", p.put.map Operation.toValue),
    ("post", p.post.map Operation.toValue), ("delete", p.delete.map Operation.toValue),
    ("options", p.options.map Operation.toValue), ("head", p.head.map Operation.toValue),
    ("patch", p.patch.map Operation.toValue)]

theorem toValue_eq : p.toValue = .object (present p.layout) := by
  simp only [toValue, Verb.every, List.flatMap_cons, List.flatMap_nil, fieldOpt_eq,
    List.append_nil, ← present_append]
  rfl

theorem Keyed.reads (h : p.Keyed) : Reads ofNode? toValue p where
  back := by
    have hkeys : ((present p.layout).map (·.1)).Nodup := nodup_keys_present (by simp [layout])
    have hverb (verb : Verb) : readOptional Operation.ofNode?
        ((p.operation? verb).map Operation.toValue) = some (p.operation? verb) :=
      readOptional_map fun o ho => (h verb o ho).reads
    obtain ⟨get, put, post, delete, options, head, patch⟩ := p
    have hget := hverb .get
    have hput := hverb .put
    have hpost := hverb .post
    have hdelete := hverb .delete
    have hoptions := hverb .options
    have hhead := hverb .head
    have hpatch := hverb .patch
    simp only [operation?] at hget hput hpost hdelete hoptions hhead hpatch
    rw [toValue_eq, ofNode?, Record.of?_object hkeys]
    simp only [bind_eq_some, pure_eq_some]
    simp [find_present, Verb.every, Verb.name, layout, Table.find, hget, hput, hpost, hdelete,
      hoptions, hhead, hpatch]
  present := nofun

end PathItem

namespace Document

/-- The names in a document are distinct wherever they name something. -/
structure Keyed (d : Document) : Prop where
  templates : d.paths.keys.Nodup
  paths : ∀ e ∈ d.paths.entries, e.2.Keyed
  models : d.definitions.keys.Nodup
  definitions : ∀ e ∈ d.definitions.entries, e.2.Keyed

variable {d : Document}

def layout (d : Document) : List (String × Option Value) :=
  [("swagger", some (.string d.version)), ("info", some d.info.toValue),
    ("host", d.host.map .string), ("basePath", d.basePath.map .string),
    ("schemes", listIfAny .string d.schemes), ("consumes", listIfAny .string d.consumes),
    ("produces", listIfAny .string d.produces), ("tags", listIfAny Tag.toValue d.tags),
    ("paths", some (ofTable PathItem.toValue d.paths)),
    ("definitions", tableIfAny Schema.toValue d.definitions)]

theorem toValue_eq : d.toValue = .object (present d.layout) := by
  rw [toValue, fieldTable_eq]
  simp only [cons_eq, fieldOpt_eq, fieldList_eq, List.append_nil, ← present_append]
  rfl

/-- A keyed document is what is read from what it is written as. -/
theorem Keyed.reads (h : d.Keyed) : Reads ofNode? toValue d where
  back := by
    have hkeys : ((present d.layout).map (·.1)).Nodup := nodup_keys_present (by simp [layout])
    have hinfo := (Info.reads d.info).back
    have htags := readOr_list fun t (_ : t ∈ d.tags) => Tag.reads t
    have hpaths := (Reads.table h.templates fun e he => (h.paths e he).reads).back
    have hdefinitions := readOr_table h.models fun e he => (h.definitions e he).reads
    rw [toValue_eq, ofNode?, Record.of?_object hkeys]
    simp only [bind_eq_some, pure_eq_some]
    simp [find_present, names, layout, Table.find, hinfo, htags, hpaths, hdefinitions]
  present := nofun

end Document

end Apidoc
