namespace Apidoc

/-- The containers that a schema can describe. -/
inductive Container where
  | list
  | set
  | map
  deriving DecidableEq

def Container.ofTypeName? (name : String) : Option Container :=
  if ["Vec", "VecDeque", "LinkedList", "List"].contains name then some .list
  else if ["HashSet", "BTreeSet", "IndexSet", "Set"].contains name then some .set
  else if ["HashMap", "BTreeMap", "IndexMap", "Map"].contains name then some .map
  else none

/-- A declared type, reduced to its name and its generic arguments. -/
structure TypeRef where
  name : String
  args : List TypeRef := []

namespace TypeRef

mutual

def decEq : (s t : TypeRef) → Decidable (s = t)
  | ⟨n, as⟩, ⟨m, bs⟩ =>
    if h : n = m then
      match decEqAll as bs with
      | isTrue h' => isTrue (by rw [h, h'])
      | isFalse h' => isFalse fun e => h' (by injection e)
    else isFalse fun e => h (by injection e)

def decEqAll : (s t : List TypeRef) → Decidable (s = t)
  | [], [] => isTrue rfl
  | [], _ :: _ => isFalse nofun
  | _ :: _, [] => isFalse nofun
  | a :: as, b :: bs =>
    match decEq a b, decEqAll as bs with
    | isTrue h, isTrue h' => isTrue (by rw [h, h'])
    | isFalse h, _ => isFalse fun e => h (by injection e)
    | _, isFalse h' => isFalse fun e => h' (by injection e)

end

instance : DecidableEq TypeRef := decEq

mutual

/-- The text of a type: its name, then its arguments in angle brackets. -/
def text : TypeRef → String
  | ⟨name, []⟩ => name
  | ⟨name, a :: as⟩ => name ++ "<" ++ a.text ++ restText as ++ ">"

def restText : List TypeRef → String
  | [] => ""
  | a :: as => ", " ++ a.text ++ restText as

end

/-- The empty type. -/
def void : TypeRef := ⟨"()", []⟩

def isVoid (t : TypeRef) : Bool :=
  t.name == "()" || t.name == "Void" || t.name == "void"

/-- Whether values of the type are whole responses, which describe their own body. -/
def isResponse (t : TypeRef) : Bool :=
  t.name == "Response"

def isOptional (t : TypeRef) : Bool :=
  t.name == "Option"

/-- The type without the optional layers around it. -/
def unwrapped : TypeRef → TypeRef
  | ⟨name, [inner]⟩ => if name = "Option" then inner.unwrapped else ⟨name, [inner]⟩
  | t => t

/-- The container that a type is, with its elements: the last argument. -/
def container? (t : TypeRef) : Option (Container × TypeRef) :=
  match Container.ofTypeName? t.unwrapped.name, t.unwrapped.args.getLast? with
  | some kind, some element => some (kind, element)
  | _, _ => none

mutual

/-- The containers of a type from the outside in, and what they finally hold; optional layers are
dropped at every level. -/
def core : TypeRef → List Container × TypeRef
  | ⟨name, args⟩ =>
    match (if name = "Option" then coreOfOnly args else none) with
    | some c => c
    | none =>
      match Container.ofTypeName? name, coreOfLast args with
      | some kind, some (kinds, leaf) => (kind :: kinds, leaf)
      | _, _ => ([], ⟨name, args⟩)

def coreOfOnly : List TypeRef → Option (List Container × TypeRef)
  | [a] => some a.core
  | _ => none

def coreOfLast : List TypeRef → Option (List Container × TypeRef)
  | [] => none
  | [a] => some a.core
  | _ :: a :: as => coreOfLast (a :: as)

end

/-- What the containers and optional layers of a type finally hold. -/
def leaf (t : TypeRef) : TypeRef := t.core.2

end TypeRef

end Apidoc
