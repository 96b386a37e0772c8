import Apidoc.Text.Digit
import Apidoc.Value

namespace Apidoc.Scalar

def isNull (s : String) : Bool :=
  ["null", "Null", "NULL", "~"].contains s

def bool? (s : String) : Option Bool :=
  if ["true", "True", "TRUE"].contains s then some true
  else if ["false", "False", "FALSE"].contains s then some false
  else none

/-- The number that the digits of a base make, after `n`. -/
def digits? (base : Nat) (n : Nat) : List Char → Option Nat
  | [] => some n
  | c :: cs => do
    let d ← Text.digitValue? c
    if d < base then digits? base (n * base + d) cs else none

/-- The number of a text of digits that is not empty. -/
def natural? (base : Nat) (cs : List Char) : Option Nat :=
  if cs.isEmpty then none else digits? base 0 cs

/-- Digits that begin with a needless zero are no number. -/
def isPadded (cs : List Char) : Bool :=
  let cs := match cs with
    | '-' :: rest => rest
    | '+' :: rest => rest
    | cs => cs
  match cs with
  | '0' :: rest => !rest.isEmpty && rest.all Char.isDigit
  | _ => false

/-- The magnitude of an integer, in one of four bases. -/
def magnitude? (cs : List Char) : Option Nat :=
  match cs with
  | '0' :: 'x' :: rest => natural? 16 rest
  | '0' :: 'o' :: rest => natural? 8 rest
  | '0' :: 'b' :: rest => natural? 2 rest
  | cs => if isPadded cs then none else natural? 10 cs

def integer? (cs : List Char) : Option Int :=
  match cs with
  | '-' :: rest => (magnitude? rest).map fun n => -(n : Int)
  | '+' :: rest => (magnitude? rest).map fun n => (n : Int)
  | cs => (magnitude? cs).map fun n => (n : Int)

/-- The digits and the exponent of a decimal number without a sign. -/
def decimal? (cs : List Char) : Option (Nat × Int) := do
  let whole := cs.takeWhile Char.isDigit
  let rest := cs.dropWhile Char.isDigit
  let (fraction, rest) := match rest with
    | '.' :: rest => (rest.takeWhile Char.isDigit, rest.dropWhile Char.isDigit)
    | rest => ([], rest)
  if whole.isEmpty && fraction.isEmpty then none
  let digits ← digits? 10 0 (whole ++ fraction)
  let shift : Int := fraction.length
  match rest with
  | [] => return (digits, -shift)
  | c :: rest =>
    if c = 'e' ∨ c = 'E' then
      let (sign, rest) := match rest with
        | '+' :: r => ((1 : Int), r)
        | '-' :: r => (-1, r)
        | r => (1, r)
      let e ← natural? 10 rest
      return (digits, sign * (e : Int) - shift)
    else none

/-- The number that a text stands for; it has no double if it is infinite or undefined. -/
def float? (s : String) : Option (Option Double) :=
  let cs := s.toList
  let (negative, unsigned) := match cs with
    | '-' :: rest => (true, rest)
    | '+' :: rest => (false, rest)
    | cs => (false, cs)
  if [".inf", ".Inf", ".INF"].contains (String.ofList unsigned) then some none
  else if [".nan", ".NaN", ".NAN"].contains s then some none
  else do
    let (digits, e) ← decimal? unsigned
    let x ← Double.ofDecimal negative digits e
    return some x

/-- The integers that a node can hold, and those that are read but do not fit. -/
def fits (n : Int) : Bool := -Int.pow 2 63 ≤ n && n < Int.pow 2 64

def isWide (n : Int) : Bool := -Int.pow 2 127 ≤ n && n < Int.pow 2 128

/-- The node of a plain text without a tag. -/
def plain (s : String) : Node :=
  if s = "" ∨ isNull s then .null
  else match bool? s with
    | some b => .bool b
    | none =>
      match (integer? s.toList).filter isWide with
      | some n => if fits n then .int n else .invalid
      | none =>
        match (if isPadded s.toList then none else float? s) with
        | some x => .number x
        | none => .string s

/-- Whether a plain text would not read back as the same text. -/
def isTyped (s : String) : Bool :=
  match plain s with
  | .string _ => isPadded s.toList
  | _ => true

def tag (name : String) : String := "tag:yaml.org,2002:" ++ name

/-- The typed node of a scalar; an application tag has none. -/
def typed? (text : String) (style : ScalarStyle) : Option String → Option Node
  | none => if style = .plain then some (plain text) else some (.string text)
  | some t =>
    if t = tag "bool" then (bool? text).map .bool
    else if t = tag "int" then (integer? text.toList).map .int
    else if t = tag "float" then (float? text).map .number
    else if t = tag "null" then if isNull text then some .null else none
    else if "!".toList.isPrefixOf t.toList then none
    else some (.string text)

end Apidoc.Scalar

namespace Apidoc.Node

mutual

/-- The node with every scalar given its value. Invalid text, integers that do not fit and
application tags have none. -/
def typed? : Node → Option Node
  | .null => some .null
  | .bool b => some (.bool b)
  | .int n => some (.int n)
  | .number x => some (.number x)
  | .string s => some (.string s)
  | .list items => (typedAll? items).map .list
  | .sequence items => (typedAll? items).map .list
  | .map entries => (typedEntries? entries).map .map
  | .scalar text style tag =>
    match Scalar.typed? text style tag with
    | some .invalid => none
    | n => n
  | .tagged _ => none
  | .invalid => none

def typedAll? : List Node → Option (List Node)
  | [] => some []
  | n :: rest => do return (← typed? n) :: (← typedAll? rest)

def typedEntries? : List (Node × Node) → Option (List (Node × Node))
  | [] => some []
  | (k, v) :: rest => do return (← typed? k, ← typed? v) :: (← typedEntries? rest)

end

end Apidoc.Node
