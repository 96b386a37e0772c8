import Apidoc.Double

namespace Apidoc

/-- Written data. The fields of an object stand in the order in which they are written. -/
inductive Value where
  | null
  | bool (b : Bool)
  | int (n : Int)
  | float (x : Double)
  | string (s : String)
  | list (items : List Value)
  | object (fields : List (String × Value))

/-- How a scalar stands in an indented text. -/
inductive ScalarStyle where
  | plain
  | literal
  | quoted
  deriving DecidableEq

/-- Data as read from either format, which keeps what the format leaves open until the wanted type
is known, such as a repeated key. A `number` is not an integer; without a double it is infinite or
undefined. `scalar` and `sequence` come from texts whose scalars have no type of their own; `tagged`
carries an application tag; `invalid` is well-formed text that denotes nothing. -/
inductive Node where
  | null
  | bool (b : Bool)
  | int (n : Int)
  | number (x : Option Double)
  | string (s : String)
  | list (items : List Node)
  | map (entries : List (Node × Node))
  | scalar (text : String) (style : ScalarStyle) (tag : Option String)
  | sequence (items : List Node)
  | tagged (node : Node)
  | invalid

mutual

/-- The node that a written value reads back as. -/
def Value.toNode : Value → Node
  | .null => .null
  | .bool b => .bool b
  | .int n => .int n
  | .float x => .number (some x)
  | .string s => .string s
  | .list items => .list (Value.toNodes items)
  | .object fields => .map (Value.toEntries fields)

def Value.toNodes : List Value → List Node
  | [] => []
  | v :: rest => v.toNode :: Value.toNodes rest

def Value.toEntries : List (String × Value) → List (Node × Node)
  | [] => []
  | (k, v) :: rest => (.string k, v.toNode) :: Value.toEntries rest

end

namespace Value

/-- The field of an object. -/
def field? (v : Value) (name : String) : Option Value :=
  match v with
  | .object fields => (fields.find? (·.1 == name)).map (·.2)
  | _ => none

def strings (items : List String) : Value :=
  .list (items.map .string)

end Value

end Apidoc
