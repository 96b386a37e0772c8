import Apidoc.Proofs.Table
import Apidoc.Record
import Mathlib.Tactic.Simproc.ExistsAndEq

namespace Apidoc

section Steps

variable {α β : Type} {o : Option α} {f : α → Option β} {a b : α} {c : β}

theorem bind_eq_some : (o >>= f) = some c ↔ ∃ a, o = some a ∧ f a = some c :=
  Option.bind_eq_some_iff

theorem pure_eq_some : (pure a : Option α) = some b ↔ a = b := by
  rw [Option.pure_def, Option.some.injEq]

end Steps

namespace Value

variable {v : Value} {vs : List Value} {fields : List (String × Value)}

theorem toNodes_eq : toNodes vs = vs.map toNode := by
  induction vs with
  | nil => rfl
  | cons v vs ih => rw [toNodes, ih, List.map_cons]

theorem toEntries_eq : toEntries fields = fields.map fun e => (.string e.1, e.2.toNode) := by
  induction fields with
  | nil => rfl
  | cons e fields ih => rw [toEntries, ih, List.map_cons]

mutual

/-- A written value has its type. -/
theorem typed?_toNode : (v : Value) → v.toNode.typed? = some v.toNode
  | .null => rfl
  | .bool _ => rfl
  | .int _ => rfl
  | .float _ => rfl
  | .string _ => rfl
  | .list items => by rw [toNode, Node.typed?, typedAll?_toNodes items, Option.map_some]
  | .object fields => by rw [toNode, Node.typed?, typedEntries?_toEntries fields, Option.map_some]

theorem typedAll?_toNodes : (vs : List Value) →
    Node.typedAll? (toNodes vs) = some (toNodes vs)
  | [] => rfl
  | v :: vs => by
    rw [toNodes, Node.typedAll?, typed?_toNode v, typedAll?_toNodes vs]
    rfl

theorem typedEntries?_toEntries : (fields : List (String × Value)) →
    Node.typedEntries? (toEntries fields) = some (toEntries fields)
  | [] => rfl
  | (k, v) :: fields => by
    rw [toEntries, Node.typedEntries?, typed?_toNode v, typedEntries?_toEntries fields]
    rfl

end

end Value

/-- Reading takes back what is written. What is written is not nothing, so that it can be told from
what is absent. -/
structure Reads {α : Type} (read : Node → Option α) (write : α → Value) (a : α) : Prop where
  back : read (write a).toNode = some a
  present : write a ≠ .null

namespace Reads

variable {α : Type} {read : Node → Option α} {write : α → Value} {a : α} {o : Option α}
  {as : List α}

@[simp] theorem text (s : String) : Reads Node.text? .string s where
  back := rfl
  present := nofun

@[simp] theorem bool (b : Bool) : Reads Node.bool? .bool b where
  back := rfl
  present := nofun

theorem mapM_map (h : ∀ a ∈ as, Reads read write a) :
    (as.map fun a => (write a).toNode).mapM read = some as := by
  induction as with
  | nil => rfl
  | cons a as ih =>
    have ha := (h a List.mem_cons_self).back
    have has := ih fun a' ha' => h a' (List.mem_cons_of_mem _ ha')
    simp [ha, has]

theorem list (h : ∀ a ∈ as, Reads read write a) :
    Reads (Node.listOf? read) (fun as => .list (as.map write)) as where
  back := by
    rw [Value.toNode, Value.toNodes_eq, List.map_map, Node.listOf?, Node.items?]
    exact mapM_map h
  present := nofun

@[simp] theorem texts (as : List String) : Reads Node.texts? Value.strings as :=
  list fun s _ => text s

theorem optional?_toNode {v : Value} (h : v ≠ .null) :
    Node.optional? read v.toNode = (read v.toNode).map some := by
  cases v with
  | null => exact (h rfl).elim
  | bool | int | float | string | list | object => rfl

theorem optional (h : Reads read write a) :
    Node.optional? read (write a).toNode = some (some a) := by
  rw [optional?_toNode h.present, h.back, Option.map_some]

/-- An optional value that is written as nothing when it is absent. -/
theorem orNull (h : ∀ a, o = some a → Reads read write a) :
    Node.optional? read (Value.orNull write o).toNode = some o := by
  cases o with
  | none => rfl
  | some a => exact (h a rfl).optional

end Reads

namespace Record

variable {α : Type} {read : Node → Option α} {default : α} {names : List String} {name : String}
  {fields : List (String × Value)}

/-- The known fields of an object as a record. -/
def ofFields (names : List String) (fields : List (String × Value)) : Record :=
  ⟨false, (fields.filter fun e => names.contains e.1).map fun e => (e.1, e.2.toNode)⟩

theorem known?_toEntries (h : (fields.map (·.1)).Nodup) :
    known? names (Value.toEntries fields) = some (ofFields names fields).fields := by
  induction fields with
  | nil => rfl
  | cons e fields ih =>
    obtain ⟨k, v⟩ := e
    obtain ⟨hk, hfields⟩ := List.nodup_cons.1 h
    have hnew : (ofFields names fields).fields.any (·.1 == k) = false := by
      rw [List.any_eq_false]
      intro e he heq
      obtain ⟨e', he', rfl⟩ := List.mem_map.1 he
      have hname : e'.1 = k := eq_of_beq heq
      exact hk (List.mem_map.2 ⟨e', (List.mem_filter.1 he').1, hname⟩)
    have hstep : known? names (Value.toEntries ((k, v) :: fields)) =
        if names.contains k then
          if (ofFields names fields).fields.any (·.1 == k) then none
          else some ((k, v.toNode) :: (ofFields names fields).fields)
        else some (ofFields names fields).fields := by
      rw [Value.toEntries, known?, ih hfields]
      rfl
    rw [hstep, hnew]
    by_cases hc : k ∈ names <;> simp [ofFields, hc]

theorem of?_object (h : (fields.map (·.1)).Nodup) :
    of? names (Value.object fields).toNode = some (ofFields names fields) := by
  rw [Value.toNode, of?, known?_toEntries h]
  rfl

/-- Fields of other names make no difference. -/
theorem ofFields_append {others : List (String × Value)} (h : ∀ e ∈ others, e.1 ∉ names) :
    ofFields names (fields ++ others) = ofFields names fields := by
  have hothers : others.filter (fun e => names.contains e.1) = [] := by
    apply List.filter_eq_nil_iff.2
    intro e he
    simpa using h e he
  rw [ofFields, List.filter_append, hothers, List.append_nil]
  rfl

theorem others?_toEntries : others? names (Value.toEntries fields) =
    some (Value.toEntries (fields.filter fun e => !names.contains e.1)) := by
  induction fields with
  | nil => rfl
  | cons e fields ih =>
    obtain ⟨k, v⟩ := e
    have hstep : others? names (Value.toEntries ((k, v) :: fields)) =
        if names.contains k then
          some (Value.toEntries (fields.filter fun e => !names.contains e.1))
        else some ((.string k, v.toNode) ::
          Value.toEntries (fields.filter fun e => !names.contains e.1)) := by
      rw [Value.toEntries, others?, ih, v.typed?_toNode]
      rfl
    rw [hstep]
    by_cases hc : k ∈ names <;> simp [hc, Value.toEntries]

theorem openOf?_object (h : (fields.map (·.1)).Nodup) :
    openOf? names (Value.object fields).toNode = some (ofFields names fields,
      Value.toEntries (fields.filter fun e => !names.contains e.1)) := by
  rw [Value.toNode, openOf?, known?_toEntries h, others?_toEntries]
  rfl

theorem get?_ofFields (h : name ∈ names) :
    (ofFields names fields).get? name = (Table.find name fields).map Value.toNode := by
  induction fields with
  | nil => rfl
  | cons e fields ih =>
    obtain ⟨k, v⟩ := e
    by_cases hk : k = name
    · subst hk
      simp [ofFields, get?, Table.find, h]
    · have hskip : (ofFields names ((k, v) :: fields)).get? name =
          (ofFields names fields).get? name := by
        by_cases hc : k ∈ names <;> simp [ofFields, get?, hc, hk]
      rw [hskip, ih, Table.find, if_neg hk]

@[simp] theorem required?_ofFields (h : name ∈ names) :
    (ofFields names fields).required? name read =
      (Table.find name fields).bind fun v => read v.toNode := by
  rw [required?, get?_ofFields h, Option.bind_map]
  rfl

end Record

namespace Value

variable {α : Type} {read : Node → Option α} {write : α → Value} {default a : α} {o : Option α}
  {as : List α} {b : Bool} {names : List String} {name key : String}
  {fields : List (String × Value)} {layout layout' : List (String × Option Value)}

/-- What a field with a default reads as. -/
def readOr (default : α) (read : Node → Option α) : Option Value → Option α
  | some v => read v.toNode
  | none => some default

/-- What a field that may be absent reads as. -/
def readOptional (read : Node → Option α) : Option Value → Option (Option α)
  | some v => v.toNode.optional? read
  | none => some none

@[simp] theorem readOr_some {v : Value} : readOr default read (some v) = read v.toNode := by
  rw [readOr]

@[simp] theorem text?_toNode (s : String) : (string s).toNode.text? = some s := rfl

@[simp] theorem bool?_toNode : (Value.bool b).toNode.bool? = some b := rfl

@[simp] theorem readOptional_map (h : ∀ a, o = some a → Reads read write a) :
    readOptional read (o.map write) = some o := by
  cases o with
  | none => rfl
  | some a => exact (h a rfl).optional

/-- A list that is there only when it has items. -/
def listIfAny (write : α → Value) (as : List α) : Option Value :=
  if as.isEmpty then none else some (.list (as.map write))

/-- A flag that is there only when it is set. -/
def flagIfSet (b : Bool) : Option Value :=
  if b then some (.bool true) else none

@[simp] theorem readOr_list (h : ∀ a ∈ as, Reads read write a) :
    readOr [] (Node.listOf? read) (listIfAny write as) = some as := by
  cases as with
  | nil => rfl
  | cons a as => exact (Reads.list h).back

@[simp] theorem readOr_texts (as : List String) :
    readOr [] Node.texts? (listIfAny .string as) = some as :=
  readOr_list fun s _ => Reads.text s

@[simp] theorem readOr_flag : readOr false Node.bool? (flagIfSet b) = some b := by
  cases b <;> rfl

/-- The fields of a layout that have a value. -/
def present (layout : List (String × Option Value)) : List (String × Value) :=
  layout.filterMap fun e => e.2.map (e.1, ·)

theorem present_append : present (layout ++ layout') = present layout ++ present layout' :=
  List.filterMap_append

theorem keys_present : ((present layout).map (·.1)).Sublist (layout.map (·.1)) := by
  induction layout with
  | nil => exact .slnil
  | cons e layout ih =>
    obtain ⟨k, o⟩ := e
    cases o with
    | none => exact ih.cons k
    | some v => exact ih.cons_cons k

theorem nodup_keys_present (h : (layout.map (·.1)).Nodup) :
    ((present layout).map (·.1)).Nodup :=
  h.sublist keys_present

theorem mem_present {v : Value} (h : (name, some v) ∈ layout) : (name, v) ∈ present layout :=
  List.mem_filterMap.2 ⟨_, h, rfl⟩

theorem find_present (h : (layout.map (·.1)).Nodup) :
    Table.find name (present layout) = (Table.find name layout).join := by
  induction layout with
  | nil => rfl
  | cons e layout ih =>
    obtain ⟨k, o⟩ := e
    obtain ⟨hk, hlayout⟩ := List.nodup_cons.1 h
    have hrest := ih hlayout
    cases o with
    | some v =>
      change Table.find name ((k, v) :: present layout) = _
      simp only [Table.find]
      split
      · rfl
      · exact hrest
    | none =>
      change Table.find name (present layout) = _
      rw [Table.find]
      split
      · rename_i hname
        subst hname
        exact Table.find_eq_none_iff.2 fun hmem => hk (keys_present.subset hmem)
      · exact hrest

theorem cons_eq {v : Value} :
    (name, v) :: fields = present [(name, some v)] ++ fields := rfl

theorem fieldOpt_eq : fieldOpt name write o = present [(name, o.map write)] := by
  cases o <;> rfl

theorem fieldList_eq : fieldList name write as = present [(name, listIfAny write as)] := by
  cases as <;> rfl

theorem fieldFlag_eq : fieldFlag name b = present [(name, flagIfSet b)] := by
  cases b <;> rfl

end Value

namespace Record

variable {α : Type} {read : Node → Option α} {default : α} {names : List String} {name : String}
  {fields : List (String × Value)}

@[simp] theorem field?_ofFields (h : name ∈ names) :
    (ofFields names fields).field? name default read =
      Value.readOr default read (Table.find name fields) := by
  rw [field?, get?_ofFields h]
  cases Table.find name fields <;> rfl

@[simp] theorem optional?_ofFields (h : name ∈ names) :
    (ofFields names fields).optional? name read =
      Value.readOptional read (Table.find name fields) := by
  rw [optional?, get?_ofFields h]
  cases Table.find name fields <;> rfl

end Record

end Apidoc
