import Apidoc.Table
import Apidoc.Text.Blank

namespace Apidoc.Path

def endsWithSlash (path : List Char) : Bool :=
  path.getLast? == some '/'

/-- Drops one slash at the end. -/
def dropLastSlash (path : List Char) : List Char :=
  if endsWithSlash path then path.dropLast else path

/-- Joins a fragment to a path with one slash between them. -/
def append (path segment : List Char) : List Char :=
  match segment with
  | [] => path
  | c :: rest =>
    if endsWithSlash path then path ++ (if c = '/' then rest else c :: rest)
    else if c = '/' ∨ path = [] then path ++ c :: rest
    else path ++ '/' :: c :: rest

/-- One slash in front, and none at the end unless it is the only character. -/
def normalize (path : List Char) : List Char :=
  match path.dropWhile (· == '/') with
  | [] => ['/']
  | rest => '/' :: dropLastSlash rest

/-- The inherited part of a path. -/
def base (parent : List Char) : List Char :=
  if parent = [] ∨ parent = ['/'] then []
  else (if parent.head? = some '/' then [] else ['/']) ++ dropLastSlash parent

def appendClass (path : List Char) : Option (List Char) → List Char
  | some c => append path c
  | none => path

def appendMethod (path : List Char) : Option (List Char) → List Char
  | some m => if m = ['/'] then path else append path (dropLastSlash m)
  | none => path

/-- The path of a method, unless neither its class nor the method declares one. -/
def composeChars (parent : List Char) (cls method : Option (List Char)) : Option (List Char) :=
  if cls.isNone ∧ method.isNone then none
  else some (normalize (appendMethod (appendClass (base parent) cls) method))

def compose (parent : String) (cls method : Option String) : Option String :=
  (composeChars parent.toList (cls.map String.toList) (method.map String.toList)).map String.ofList

/-- What stands before the brace that closes the one `depth` levels up, and what follows it. -/
def closing? : Nat → List Char → Option (List Char × List Char)
  | _, [] => none
  | depth, '{' :: rest =>
    (closing? (depth + 1) rest).map fun (inner, after) => ('{' :: inner, after)
  | 0, '}' :: rest => some ([], rest)
  | depth + 1, '}' :: rest =>
    (closing? depth rest).map fun (inner, after) => ('}' :: inner, after)
  | depth, c :: rest =>
    (closing? depth rest).map fun (inner, after) => (c :: inner, after)

theorem closing?_length {depth : Nat} {cs inner after : List Char}
    (h : closing? depth cs = some (inner, after)) : after.length < cs.length := by
  fun_induction closing? depth cs generalizing inner after with
  | case1 => simp at h
  | case2 _ _ ih =>
    obtain ⟨⟨i, a⟩, h', e⟩ := Option.map_eq_some_iff.1 h
    cases e
    exact Nat.lt_succ_of_lt (ih h')
  | case3 => simp at h; simp [h.2]
  | case4 _ _ ih =>
    obtain ⟨⟨i, a⟩, h', e⟩ := Option.map_eq_some_iff.1 h
    cases e
    exact Nat.lt_succ_of_lt (ih h')
  | case5 _ _ _ _ _ _ ih =>
    obtain ⟨⟨i, a⟩, h', e⟩ := Option.map_eq_some_iff.1 h
    cases e
    exact Nat.lt_succ_of_lt (ih h')

/-- The name and the pattern of a constrained template. -/
def constraint? (inner : List Char) : Option (List Char × List Char) :=
  match inner.dropWhile (· != ':') with
  | ':' :: pattern =>
    some (Text.trimChars (inner.takeWhile (· != ':')), Text.trimChars pattern)
  | _ => none

/-- What a template is rewritten to. -/
def plain (inner : List Char) : List Char :=
  match constraint? inner with
  | some (name, _) => '{' :: name ++ ['}']
  | none => '{' :: inner ++ ['}']

/-- The rewritten path and the constraints in it, in order. A brace that is never closed ends the
search. -/
def templates (path : List Char) : List Char × List (List Char × List Char) :=
  match path with
  | [] => ([], [])
  | c :: rest =>
    if c = '{' then
      match h : closing? 0 rest with
      | some (inner, after) =>
        have := closing?_length h
        let (text, found) := templates after
        (plain inner ++ text, (constraint? inner).toList ++ found)
      | none => (c :: rest, [])
    else
      let (text, found) := templates rest
      (c :: text, found)
termination_by path.length

/-- The path with plain templates only, and the pattern of each constrained parameter. -/
def extract (path : String) : String × Table String :=
  let (text, found) := templates path.toList
  (String.ofList text,
    Table.ofList (found.map fun (name, pattern) => (String.ofList name, String.ofList pattern)))

end Apidoc.Path
