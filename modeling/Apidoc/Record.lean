import Apidoc.Scalar
import Apidoc.Table

namespace Apidoc

namespace Node

/-- The text of a node where a text is wanted. -/
def text? : Node → Option String
  | .string s => some s
  | .scalar s _ _ => some s
  | _ => none

def bool? : Node → Option Bool
  | .bool b => some b
  | .scalar s style tag =>
    if style = .plain ∨ (style = .literal ∧ tag = some (Scalar.tag "bool")) then Scalar.bool? s
    else none
  | _ => none

/-- A number of 16 bits. -/
def word? : Node → Option UInt16
  | .int n => if 0 ≤ n ∧ n < 65536 then some (UInt16.ofNat n.toNat) else none
  | _ => none

/-- The items of a list. An empty plain scalar is an empty list. -/
def items? : Node → Option (List Node)
  | .list items => some items
  | .sequence items => some items
  | .scalar s style _ => if s = "" ∧ style = .plain then some [] else none
  | .tagged n => n.items?
  | _ => none

def listOf? {α : Type} (read : Node → Option α) (n : Node) : Option (List α) :=
  n.items?.bind fun items => items.mapM read

def texts? (n : Node) : Option (List String) := n.listOf? text?

/-- A value that may be absent: null is absent, and so is an empty plain scalar. -/
def optional? {α : Type} (read : Node → Option α) (n : Node) : Option (Option α) :=
  match n with
  | .null => some none
  | .scalar s style tag =>
    if style ≠ .plain then (read n).map some
    else match tag with
      | none => if s = "" ∨ Scalar.isNull s then some none else (read n).map some
      | some t =>
        if t = Scalar.tag "null" then if Scalar.isNull s then some none else none
        else (read n).map some
  | n => (read n).map some

/-- The name in an enumeration, alone or as the only key of an object whose value is null, or also
an empty object if `loose`. -/
def choice? {α : Type} (loose : Bool) (names : List String) (ofName? : String → Option α) :
    Node → Option α
  | .string s => ofName? s
  | .map [(k, v)] =>
    match v with
    | .null => byKey k
    | .map [] => if loose then byKey k else none
    | _ => none
  | _ => none
where
  byKey : Node → Option α
    | .string s => ofName? s
    | .int n => if n < 0 then none else names[n.toNat]?.bind ofName?
    | _ => none

end Node

/-- The fields of a record, given by name or by position. -/
structure Record where
  positional : Bool
  fields : List (String × Node)

namespace Record

/-- The field that a key stands for: a name, or a position; `some none` is no field. -/
def fieldName? (names : List String) : Node → Option (Option String)
  | .string s => some (some s)
  | .scalar s _ _ => some (some s)
  | .int n => if n < 0 then none else some names[n.toNat]?
  | _ => none

/-- The known fields of an object. -/
def known? (names : List String) : List (Node × Node) → Option (List (String × Node))
  | [] => some []
  | (k, v) :: rest => do
    let name ← fieldName? names k
    let rest ← known? names rest
    match name with
    | none => return rest
    | some name =>
      if names.contains name then
        if rest.any (·.1 == name) then none else return (name, v) :: rest
      else return rest

/-- The record that a node holds. -/
def of? (names : List String) : Node → Option Record
  | .map entries => (known? names entries).map fun fields => ⟨false, fields⟩
  | .list items => if items.length ≤ names.length then some ⟨true, names.zip items⟩ else none
  | .scalar s style _ => if s = "" ∧ style = .plain then some ⟨false, []⟩ else none
  | .tagged n => of? names n
  | _ => none

/-- The typed entries whose key is none of the names. -/
def others? (names : List String) : List (Node × Node) → Option (List (Node × Node))
  | [] => some []
  | (k, v) :: rest => do
    let key ← k.text?
    let rest ← others? names rest
    if names.contains key then return rest else return (.string key, ← v.typed?) :: rest

/-- The record that an object holds, and its other entries. -/
def openOf? (names : List String) : Node → Option (Record × List (Node × Node))
  | .map entries => do
    let fields ← known? names entries
    let others ← others? names entries
    return (⟨false, fields⟩, others)
  | .scalar s style _ => if s = "" ∧ style = .plain then some (⟨false, []⟩, []) else none
  | .tagged n => openOf? names n
  | _ => none

def get? (r : Record) (name : String) : Option Node :=
  (r.fields.find? (·.1 == name)).map (·.2)

def required? {α : Type} (r : Record) (name : String) (read : Node → Option α) : Option α :=
  (r.get? name).bind read

/-- A field with a default. -/
def field? {α : Type} (r : Record) (name : String) (default : α) (read : Node → Option α) :
    Option α :=
  match r.get? name with
  | some n => read n
  | none => some default

/-- A field that may be absent; by position it must be there. -/
def optional? {α : Type} (r : Record) (name : String) (read : Node → Option α) :
    Option (Option α) :=
  match r.get? name with
  | some n => n.optional? read
  | none => if r.positional then none else some none

end Record

namespace Value

/-- Fields that are written only when there is something to write. -/
def fieldOpt {α : Type} (name : String) (write : α → Value) : Option α → List (String × Value)
  | some a => [(name, write a)]
  | none => []

def fieldList {α : Type} (name : String) (write : α → Value) (xs : List α) :
    List (String × Value) :=
  if xs.isEmpty then [] else [(name, .list (xs.map write))]

def fieldFlag (name : String) (b : Bool) : List (String × Value) :=
  if b then [(name, .bool true)] else []

/-- A value that is null when absent. -/
def orNull {α : Type} (write : α → Value) : Option α → Value
  | some a => write a
  | none => .null

def ofTable {α : Type} (write : α → Value) (t : Table α) : Value :=
  .object (t.map write).entries

end Value

end Apidoc
