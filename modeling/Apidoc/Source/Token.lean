import Apidoc.Text.Blank
import Apidoc.Text.Digit
import Apidoc.Text.Identifier

namespace Apidoc.Source

inductive Delimiter where
  | paren
  | bracket
  | brace
  deriving DecidableEq

inductive Literal where
  | string (value : String)
  | byteString
  | cString
  | byte
  | char
  | int
  | float
  deriving DecidableEq

/-- `joint` says that the next character is punctuation too. A raw identifier keeps its marker. -/
inductive Token where
  | ident (name : String)
  | punct (c : Char) (joint : Bool)
  | literal (l : Literal)
  | opening (d : Delimiter)
  | closing (d : Delimiter)
  deriving DecidableEq

def isSourceBlank (c : Char) : Bool :=
  Text.isBlank c || c.toNat == 0x200E || c.toNat == 0x200F

def startsWith (start : String) (cs : List Char) : Bool :=
  start.toList.isPrefixOf cs

/-- The characters of a line and what follows, its line break included. -/
def takeLine : List Char → List Char × List Char
  | [] => ([], [])
  | '\n' :: rest => ([], '\n' :: rest)
  | '\r' :: '\n' :: rest => ([], '\r' :: '\n' :: rest)
  | c :: rest =>
    let (line, rest) := takeLine rest
    (c :: line, rest)

/-- What follows the block comment that is `depth` levels open, and its own text. -/
def takeBlock (depth : Nat) : List Char → Option (List Char × List Char)
  | '/' :: '*' :: rest => do
    let (text, rest) ← takeBlock (depth + 1) rest
    return ('/' :: '*' :: text, rest)
  | '*' :: '/' :: rest =>
    match depth with
    | 0 => some ([], rest)
    | d + 1 => do
      let (text, rest) ← takeBlock d rest
      return ('*' :: '/' :: text, rest)
  | c :: rest => do
    let (text, rest) ← takeBlock depth rest
    return (c :: text, rest)
  | [] => none

/-- Drops one blank or one comment that documents nothing. -/
def skipOne? (cs : List Char) : Option (List Char) :=
  match cs with
  | '/' :: '/' :: rest =>
    if (startsWith "/" rest && !startsWith "//" rest) || startsWith "!" rest then none
    else some (takeLine rest).2
  | '/' :: '*' :: rest =>
    if startsWith "*/" rest then some (rest.drop 2)
    else if (startsWith "*" rest && !startsWith "**" rest) || startsWith "!" rest then none
    else (takeBlock 0 rest).map (·.2)
  | c :: rest => if isSourceBlank c then some rest else none
  | [] => none

/-- Whether every carriage return is followed by a line feed. -/
def lineBreaksOk : List Char → Bool
  | '\r' :: '\n' :: rest => lineBreaksOk rest
  | '\r' :: _ => false
  | _ :: rest => lineBreaksOk rest
  | [] => true

/-- The tokens of the attribute that a documentation comment abbreviates. -/
def docTokens (inner : Bool) (text : List Char) : List Token :=
  .punct '#' false :: ((if inner then [.punct '!' false] else []) ++
    [.opening .bracket, .ident "doc", .punct '=' false,
      .literal (.string (String.ofList text)), .closing .bracket])

def docComment? (cs : List Char) : Option (List Token × List Char) := do
  let (inner, text, rest) ←
    if startsWith "//!" cs then
      let (line, rest) := takeLine (cs.drop 3)
      some (true, line, rest)
    else if startsWith "/*!" cs then
      let (text, rest) ← takeBlock 0 (cs.drop 2)
      some (true, text.drop 1, rest)
    else if startsWith "///" cs && !startsWith "////" cs then
      let (line, rest) := takeLine (cs.drop 3)
      some (false, line, rest)
    else if startsWith "/**" cs && !startsWith "/***" cs then
      let (text, rest) ← takeBlock 0 (cs.drop 2)
      some (false, text.drop 1, rest)
    else none
  if lineBreaksOk text then some (docTokens inner text, rest) else none

/-- An identifier without the raw marker. -/
def takeIdent? : List Char → Option (List Char × List Char)
  | c :: rest =>
    if Text.isIdentStart c then
      some (c :: rest.takeWhile Text.isIdentRest, rest.dropWhile Text.isIdentRest)
    else none
  | [] => none

/-- An identifier, raw or not. -/
def takeIdentAny? (cs : List Char) : Option (String × List Char) :=
  match cs with
  | 'r' :: '#' :: rest => do
    let (name, rest) ← takeIdent? rest
    let name := String.ofList name
    if ["_", "super", "self", "Self", "crate"].contains name then none
    else some ("r#" ++ name, rest)
  | cs => do
    let (name, rest) ← takeIdent? cs
    return (String.ofList name, rest)

def isPunct (c : Char) : Bool :=
  "~!@#$%^&*-=+|;:,<.>/?'".toList.contains c

def startsPunct (cs : List Char) : Bool :=
  match cs with
  | c :: _ => !startsWith "//" cs && !startsWith "/*" cs && isPunct c
  | [] => false

/-- A punctuation character; a quote only before an identifier that no quote ends. -/
def takePunct? (cs : List Char) : Option (Token × List Char) :=
  match cs with
  | c :: rest =>
    if !startsPunct cs then none
    else if c = '\'' then do
      let (_, after) ← takeIdentAny? rest
      if startsWith "'" after || (startsWith "#" after && !startsWith "r#" rest) then none
      else some (.punct '\'' true, rest)
    else some (.punct c (startsPunct rest), rest)
  | [] => none

/-- The code point of `\x7f`, after the `x`. -/
def hexEscape? (limit : Nat) : List Char → Option (Nat × List Char)
  | a :: b :: rest => do
    let n := (← Text.digitValue? a) * 16 + (← Text.digitValue? b)
    if n < limit then some (n, rest) else none
  | _ => none

/-- The digits of `\u{...}` up to the closing brace. -/
def braceDigits? (count value : Nat) : List Char → Option (Nat × List Char)
  | '}' :: rest => if count = 0 then none else some (value, rest)
  | '_' :: rest => if count = 0 then none else braceDigits? count value rest
  | c :: rest => do
    let d ← Text.digitValue? c
    if count = 6 then none else braceDigits? (count + 1) (value * 16 + d) rest
  | [] => none

/-- The code point of `\u{...}`, after the `u`. -/
def braceEscape? : List Char → Option (Nat × List Char)
  | '{' :: rest => do
    let (n, rest) ← braceDigits? 0 0 rest
    if n.isValidChar then some (n, rest) else none
  | _ => none

/-- The escapes that stand for one fixed character. -/
def fixedEscape? : Char → Option Nat
  | 'n' => some 10
  | 'r' => some 13
  | 't' => some 9
  | '\\' => some 92
  | '0' => some 0
  | '\'' => some 39
  | '"' => some 34
  | _ => none

inductive StringKind where
  | text
  | bytes
  | c
  deriving DecidableEq

/-- The blanks that an escaped line break skips; a lone carriage return is refused. -/
def skipEscapedBreak : List Char → Option (List Char)
  | '\r' :: '\n' :: rest => skipEscapedBreak rest
  | '\r' :: _ => none
  | c :: rest => if c = '\n' ∨ c = '\t' ∨ c = ' ' then skipEscapedBreak rest else some (c :: rest)
  | [] => none

/-- The code points of a quoted string up to its closing quote. -/
def cookedString (kind : StringKind) : Nat → List Char → Option (List Nat × List Char)
  | 0, _ => none
  | fuel + 1, cs =>
    match cs with
    | '"' :: rest => some ([], rest)
    | '\r' :: '\n' :: rest => add 10 (cookedString kind fuel rest)
    | '\r' :: _ => none
    | '\\' :: 'x' :: rest => do
      let (n, rest) ← hexEscape? (if kind = .text then 0x80 else 0x100) rest
      if kind = .c ∧ n = 0 then none else add n (cookedString kind fuel rest)
    | '\\' :: 'u' :: rest => do
      if kind = .bytes then none
      let (n, rest) ← braceEscape? rest
      if kind = .c ∧ n = 0 then none else add n (cookedString kind fuel rest)
    | '\\' :: '\n' :: rest => do cookedString kind fuel (← skipEscapedBreak ('\n' :: rest))
    | '\\' :: '\r' :: rest => do cookedString kind fuel (← skipEscapedBreak ('\r' :: rest))
    | '\\' :: c :: rest => do
      let n ← fixedEscape? c
      if kind = .c ∧ n = 0 then none else add n (cookedString kind fuel rest)
    | c :: rest =>
      if kind = .bytes ∧ c.toNat ≥ 0x80 then none
      else if kind = .c ∧ c.toNat = 0 then none
      else add c.toNat (cookedString kind fuel rest)
    | [] => none
where
  add (n : Nat) (r : Option (List Nat × List Char)) : Option (List Nat × List Char) :=
    r.map fun (ns, rest) => (n :: ns, rest)

/-- The text of a raw string up to a quote with `hashes` marks after it. -/
def rawString (kind : StringKind) (hashes : Nat) : List Char → Option (List Nat × List Char)
  | '"' :: rest =>
    if (List.replicate hashes '#').isPrefixOf rest then some ([], rest.drop hashes)
    else (rawString kind hashes rest).map fun (ns, r) => (34 :: ns, r)
  | '\r' :: '\n' :: rest => (rawString kind hashes rest).map fun (ns, r) => (10 :: ns, r)
  | '\r' :: _ => none
  | c :: rest =>
    if (kind = .bytes ∧ c.toNat ≥ 0x80) ∨ (kind = .c ∧ c.toNat = 0) then none
    else (rawString kind hashes rest).map fun (ns, r) => (c.toNat :: ns, r)
  | [] => none

/-- A quoted or raw string, after the letters that give its kind. -/
def takeString? (kind : StringKind) (cs : List Char) : Option (List Nat × List Char) :=
  match cs with
  | '"' :: rest => cookedString kind (rest.length + 1) rest
  | 'r' :: rest =>
    let hashes := (rest.takeWhile (· == '#')).length
    match rest.drop hashes with
    | '"' :: rest => if hashes > 255 then none else rawString kind hashes rest
    | _ => none
  | _ => none

/-- Drops the suffix of a literal. -/
def dropSuffix (cs : List Char) : List Char :=
  match takeIdent? cs with
  | some (_, rest) => rest
  | none => cs

/-- One character or escape, then the closing quote. -/
def takeQuoted? (bytes : Bool) (cs : List Char) : Option (List Char) := do
  let rest ← match cs with
    | '\\' :: 'x' :: rest => (hexEscape? (if bytes then 0x100 else 0x80) rest).map (·.2)
    | '\\' :: 'u' :: rest => if bytes then none else (braceEscape? rest).map (·.2)
    | '\\' :: c :: rest => (fixedEscape? c).map fun _ => rest
    | c :: rest => if bytes && c.toNat ≥ 0x80 then none else some rest
    | [] => none
  match rest with
  | '\'' :: rest => some (dropSuffix rest)
  | _ => none

/-- Drops the suffix of a number; no identifier may follow directly. -/
def endNumber? (cs : List Char) : Option (List Char) :=
  let rest := dropSuffix cs
  match rest with
  | c :: _ => if Text.isIdentRest c then none else some rest
  | [] => some rest

def isDigitOrBar (c : Char) : Bool :=
  c.isDigit || c == '_'

/-- The exponent of a number, its sign and digits. -/
def takeExponent? (cs : List Char) : Option (List Char) :=
  let rest := cs.dropWhile (· == '_')
  let rest := match rest with
    | '+' :: r => r
    | '-' :: r => r
    | r => r
  let digits := rest.takeWhile isDigitOrBar
  if digits.any Char.isDigit then some (rest.dropWhile isDigitOrBar) else none

/-- What follows a number with a point or an exponent. -/
def takeFloat? (cs : List Char) : Option (List Char) := do
  match cs with
  | c :: _ => if !c.isDigit then none
  | [] => none
  let rest := cs.dropWhile isDigitOrBar
  match rest with
  | '.' :: after =>
    match after with
    | c :: _ => if c = '.' ∨ Text.isIdentStart c then none
    | [] => pure ()
    let tail := after.dropWhile isDigitOrBar
    match tail with
    | c :: r =>
      if c = 'e' ∨ c = 'E' then endNumber? ((takeExponent? r).getD tail) else endNumber? tail
    | [] => endNumber? tail
  | c :: r => if c = 'e' ∨ c = 'E' then endNumber? (← takeExponent? r) else none
  | [] => none

/-- Digits of a base; a decimal digit beyond the base is refused, a letter ends the number. -/
def takeDigits? (base : Nat) (empty : Bool) : List Char → Option (List Char)
  | [] => if empty then none else some []
  | c :: rest =>
    if c = '_' then
      if empty && base == 10 then none else takeDigits? base empty rest
    else match Text.digitValue? c with
      | none => if empty then none else some (c :: rest)
      | some d =>
        if d < base then takeDigits? base false rest
        else if c.isDigit then none
        else if empty then none else some (c :: rest)

/-- What follows an integer. -/
def takeInt? (cs : List Char) : Option (List Char) := do
  let (base, digits) := match cs with
    | '0' :: 'x' :: rest => (16, rest)
    | '0' :: 'o' :: rest => (8, rest)
    | '0' :: 'b' :: rest => (2, rest)
    | cs => (10, cs)
  endNumber? (← takeDigits? base true digits)

def textOf (ns : List Nat) : String :=
  String.ofList (ns.map Char.ofNat)

/-- A string, character or number literal. -/
def takeLiteral? (cs : List Char) : Option (Token × List Char) :=
  match takeString? .text cs with
  | some (ns, rest) => some (.literal (.string (textOf ns)), dropSuffix rest)
  | none =>
  match cs with
  | 'b' :: '\'' :: rest => (takeQuoted? true rest).map (.literal .byte, ·)
  | 'b' :: rest => (takeString? .bytes rest).map fun (_, r) => (.literal .byteString, dropSuffix r)
  | 'c' :: rest => (takeString? .c rest).map fun (_, r) => (.literal .cString, dropSuffix r)
  | '\'' :: rest => (takeQuoted? false rest).map (.literal .char, ·)
  | cs =>
    match takeFloat? cs with
    | some rest => some (.literal .float, rest)
    | none => (takeInt? cs).map (.literal .int, ·)

/-- Whether the text begins like a string, so that no identifier begins here. -/
def startsString (cs : List Char) : Bool :=
  ["r\"", "r#\"", "r##", "b\"", "b'", "br\"", "br#", "c\"", "cr\"", "cr#"].any (startsWith · cs)

/-- A token that is no delimiter. -/
def takeLeaf? (cs : List Char) : Option (Token × List Char) :=
  match takeLiteral? cs with
  | some r => some r
  | none =>
    match takePunct? cs with
    | some r => some r
    | none =>
      if startsString cs then none
      else (takeIdentAny? cs).map fun (name, rest) => (.ident name, rest)

def opening? : Char → Option Delimiter
  | '(' => some .paren
  | '[' => some .bracket
  | '{' => some .brace
  | _ => none

def closing? : Char → Option Delimiter
  | ')' => some .paren
  | ']' => some .bracket
  | '}' => some .brace
  | _ => none

/-- The tokens of the characters, with the delimiters in `open` still to be closed. -/
def tokensFrom : Nat → List Delimiter → List Char → Option (List Token)
  | 0, _, _ => none
  | fuel + 1, stack, cs =>
    match skipOne? cs with
    | some rest => tokensFrom fuel stack rest
    | none =>
      match docComment? cs with
      | some (tokens, rest) => (tokensFrom fuel stack rest).map (tokens ++ ·)
      | none =>
        match cs with
        | [] => if stack.isEmpty then some [] else none
        | c :: rest =>
          match opening? c with
          | some d => (tokensFrom fuel (d :: stack) rest).map (.opening d :: ·)
          | none =>
            match closing? c with
            | some d =>
              match stack with
              | top :: below =>
                if top = d then (tokensFrom fuel below rest).map (.closing d :: ·) else none
              | [] => none
            | none => do
              let (token, rest) ← takeLeaf? cs
              return token :: (← tokensFrom fuel stack rest)

def dropMark (cs : List Char) : List Char :=
  match cs with
  | c :: rest => if c.toNat = 0xFEFF then rest else cs
  | [] => []

/-- The tokens of a text. A byte order mark at its start is ignored. -/
def tokens? (cs : List Char) : Option (List Token) :=
  tokensFrom (cs.length + 1) [] (dropMark cs)

/-- Drops blanks and comments that document nothing. -/
def skipBlanks : Nat → List Char → List Char
  | 0, cs => cs
  | fuel + 1, cs =>
    match skipOne? cs with
    | some rest => skipBlanks fuel rest
    | none => cs

/-- Drops the interpreter line at the start of a file, unless it begins an attribute. -/
def dropInterpreter (cs : List Char) : List Char :=
  match cs with
  | '#' :: '!' :: rest =>
    match skipBlanks rest.length rest with
    | '[' :: _ => cs
    | _ => cs.dropWhile (· != '\n')
  | cs => cs

/-- The tokens of a whole file. -/
def fileTokens? (text : String) : Option (List Token) :=
  tokens? (dropInterpreter (dropMark text.toList))

end Apidoc.Source
