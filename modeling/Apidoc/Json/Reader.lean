import Apidoc.Text.Digit
import Apidoc.Value

/-!
Every production takes the characters that are left and returns what it read with the characters
after it. Fuel bounds the nesting and is computed from the length of the text.
-/

namespace Apidoc.Json

/-- The deepest nesting of lists and objects that a used value may have. -/
def maxDepth : Nat := 127

def isSpace (c : Char) : Bool :=
  c == ' ' || c == '\n' || c == '\t' || c == '\r'

def skipSpace (cs : List Char) : List Char :=
  cs.dropWhile isSpace

/-- Four hexadecimal digits. -/
def hex4? : List Char → Option (Nat × List Char)
  | a :: b :: c :: d :: rest => do
    let a ← Text.digitValue? a
    let b ← Text.digitValue? b
    let c ← Text.digitValue? c
    let d ← Text.digitValue? d
    return (((a * 16 + b) * 16 + c) * 16 + d, rest)
  | _ => none

def simpleEscape? : Char → Option Char
  | '"' => some '"'
  | '\\' => some '\\'
  | '/' => some '/'
  | 'b' => some '\x08'
  | 'f' => some '\x0c'
  | 'n' => some '\n'
  | 'r' => some '\r'
  | 't' => some '\t'
  | _ => none

/-- One item of a string's text: a code unit or a character. -/
inductive Unit16 where
  | char (c : Char)
  | high (n : Nat)
  | low (n : Nat)

def Unit16.ofNat (n : Nat) : Unit16 :=
  if 0xD800 ≤ n ∧ n < 0xDC00 then .high n
  else if 0xDC00 ≤ n ∧ n < 0xE000 then .low n
  else .char (Char.ofNat n)

/-- The items up to the closing quote. -/
def stringItems : Nat → List Char → Option (List Unit16 × List Char)
  | 0, _ => none
  | fuel + 1, cs =>
    match cs with
    | '"' :: rest => some ([], rest)
    | '\\' :: 'u' :: rest => do
      let (n, rest) ← hex4? rest
      let (items, rest) ← stringItems fuel rest
      return (.ofNat n :: items, rest)
    | '\\' :: c :: rest => do
      let c ← simpleEscape? c
      let (items, rest) ← stringItems fuel rest
      return (.char c :: items, rest)
    | c :: rest =>
      if c.toNat < 0x20 ∨ c = '\\' then none
      else do
        let (items, rest) ← stringItems fuel rest
        return (.char c :: items, rest)
    | [] => none

/-- The characters of a string; two halves of a pair make one, a lone half makes none. -/
def pairUp : List Unit16 → Option (List Char)
  | [] => some []
  | .char c :: rest => (pairUp rest).map (c :: ·)
  | .high a :: .low b :: rest =>
    (pairUp rest).map (Char.ofNat (0x10000 + (a - 0xD800) * 0x400 + (b - 0xDC00)) :: ·)
  | _ => none

def stringNode (items : List Unit16) : Node :=
  match pairUp items with
  | some cs => .string (String.ofList cs)
  | none => .invalid

def takeDigits (cs : List Char) : List Char × List Char :=
  (cs.takeWhile Char.isDigit, cs.dropWhile Char.isDigit)

def digitsValue (ds : List Char) : Nat :=
  ds.foldl (fun n d => n * 10 + (d.toNat - '0'.toNat)) 0

/-- The largest significand that is kept: what a 64-bit word holds. -/
def wordLimit : Nat := Nat.pow 2 64

/-- Reads digits into a significand below `wordLimit` and counts those that no longer fit. -/
def fitDigits (start : Nat) : List Char → Nat × Nat
  | [] => (start, 0)
  | d :: ds =>
    let next := start * 10 + (d.toNat - '0'.toNat)
    if next < wordLimit then fitDigits next ds else (start, (d :: ds).length)

/-- `significand · 10 ^ e` with the significand, the power and the result each rounded once. -/
def scaleDecimal (significand : Nat) (e : Int) : Option Double := do
  let x ← Double.ofRatio false significand 1
  if x.mantissa = 0 then return x
  if e < -308 then
    let p ← Double.ofDecimal false 1 308
    let x ← x.div p
    if e < -616 then return { x with mantissa := 0, exponent := -1074 }
    let p ← Double.ofDecimal false 1 (-(e + 308))
    x.div p
  else if e < 0 then
    let p ← Double.ofDecimal false 1 (-e)
    x.div p
  else
    if e > 308 then none
    let p ← Double.ofDecimal false 1 e
    x.mul p

/-- A number from its parts. Integers of 64 bits stay integers, all else is a double. -/
def numberNode (negative : Bool) (whole : List Char) (fraction : Option (List Char))
    (exponent : Option Int) : Node :=
  let (w, dropped) := fitDigits 0 whole
  match fraction, exponent with
  | none, none =>
    if dropped = 0 then
      if negative then
        if w = 0 then .number (some ⟨true, 0, -1074⟩)
        else if w ≤ Nat.pow 2 63 then .int (-w)
        else .number ((Double.ofRatio true w 1))
      else .int w
    else float w dropped
  | _, _ =>
    if dropped = 0 then
      let f := fraction.getD []
      let (s, lost) := fitDigits w f
      float s (exponent.getD 0 - ((f.length - lost : Nat) : Int))
    else float w (dropped + exponent.getD 0)
where
  float (s : Nat) (e : Int) : Node :=
    match scaleDecimal s e with
    | some x => .number (some { x with negative := negative })
    | none => .invalid

/-- The number that starts here. -/
def readNumber (cs : List Char) : Option (Node × List Char) := do
  let (negative, cs) := match cs with
    | '-' :: rest => (true, rest)
    | cs => (false, cs)
  let (whole, cs) := takeDigits cs
  if whole.isEmpty then none
  if whole.length > 1 && whole.head? == some '0' then none
  let (fraction, cs) ← match cs with
    | '.' :: rest =>
      let (ds, rest) := takeDigits rest
      if ds.isEmpty then none else pure (some ds, rest)
    | cs => pure (none, cs)
  let (exponent, cs) ← match cs with
    | c :: rest =>
      if c = 'e' ∨ c = 'E' then
        let (sign, rest) := match rest with
          | '+' :: r => ((1 : Int), r)
          | '-' :: r => (-1, r)
          | r => (1, r)
        let (ds, rest) := takeDigits rest
        if ds.isEmpty then none else pure (some (sign * (digitsValue ds : Int)), rest)
      else pure (none, cs)
    | [] => pure (none, cs)
  return (numberNode negative whole fraction exponent, cs)

def keyword (word : String) (cs : List Char) : Option (List Char) :=
  if word.toList.isPrefixOf cs then some (cs.drop word.length) else none

mutual

/-- The value that starts here, `depth` lists and objects deep. -/
def readValue : Nat → Nat → List Char → Option (Node × List Char)
  | 0, _, _ => none
  | fuel + 1, depth, cs =>
    match skipSpace cs with
    | '{' :: rest => do
      let (entries, rest) ← match skipSpace rest with
        | '}' :: rest => some ([], rest)
        | rest => readEntries fuel (depth + 1) rest
      return (if depth < maxDepth then .map entries else .invalid, rest)
    | '[' :: rest => do
      let (items, rest) ← match skipSpace rest with
        | ']' :: rest => some ([], rest)
        | rest => readItems fuel (depth + 1) rest
      return (if depth < maxDepth then .list items else .invalid, rest)
    | '"' :: rest => do
      let (items, rest) ← stringItems (rest.length + 1) rest
      return (stringNode items, rest)
    | 't' :: rest => (keyword "rue" rest).map (.bool true, ·)
    | 'f' :: rest => (keyword "alse" rest).map (.bool false, ·)
    | 'n' :: rest => (keyword "ull" rest).map (.null, ·)
    | cs => readNumber cs

/-- The items of a list up to its closing bracket. -/
def readItems : Nat → Nat → List Char → Option (List Node × List Char)
  | 0, _, _ => none
  | fuel + 1, depth, cs => do
    let (v, rest) ← readValue fuel depth cs
    match skipSpace rest with
    | ',' :: rest =>
      let (vs, rest) ← readItems fuel depth rest
      return (v :: vs, rest)
    | ']' :: rest => return ([v], rest)
    | _ => none

/-- The entries of an object up to its closing brace. -/
def readEntries : Nat → Nat → List Char → Option (List (Node × Node) × List Char)
  | 0, _, _ => none
  | fuel + 1, depth, cs =>
    match skipSpace cs with
    | '"' :: rest => do
      let (items, rest) ← stringItems (rest.length + 1) rest
      match skipSpace rest with
      | ':' :: rest =>
        let (v, rest) ← readValue fuel depth rest
        let entry := (stringNode items, v)
        match skipSpace rest with
        | ',' :: rest =>
          let (entries, rest) ← readEntries fuel depth rest
          return (entry :: entries, rest)
        | '}' :: rest => return ([entry], rest)
        | _ => none
      | _ => none
    | _ => none

end

/-- The node that the whole text denotes. -/
def read (text : String) : Option Node := do
  let cs := text.toList
  let (v, rest) ← readValue (cs.length + 1) 0 cs
  if (skipSpace rest).isEmpty then some v else none

mutual

/-- The value that a node denotes: of the entries of one name the last one counts, at the position
of the first. Invalid text denotes none. -/
def valueOf? : Node → Option Value
  | .null => some .null
  | .bool b => some (.bool b)
  | .int n => some (.int n)
  | .number (some x) => some (.float x)
  | .string s => some (.string s)
  | .list items => (valuesOf? items).map .list
  | .map entries => (fieldsOf? entries).map fun fields =>
    .object (fields.foldl overwrite [])
  | _ => none

def valuesOf? : List Node → Option (List Value)
  | [] => some []
  | n :: rest => do return (← valueOf? n) :: (← valuesOf? rest)

def fieldsOf? : List (Node × Node) → Option (List (String × Value))
  | [] => some []
  | (.string k, n) :: rest => do return (k, ← valueOf? n) :: (← fieldsOf? rest)
  | _ => none

def overwrite (fields : List (String × Value)) (e : String × Value) : List (String × Value) :=
  if fields.any (·.1 == e.1) then fields.map fun f => if f.1 == e.1 then e else f
  else fields ++ [e]

end

/-- The value that the whole text denotes. -/
def readValue? (text : String) : Option Value :=
  (read text).bind valueOf?

end Apidoc.Json
