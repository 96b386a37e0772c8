import Apidoc.Scalar
import Apidoc.Yaml.Character

namespace Apidoc.Yaml

/-- How a scalar is written. -/
inductive Form where
  | plain
  | single
  | double
  | literal
  deriving DecidableEq

/-- Whether two neighbouring characters satisfy `p` and `q`. -/
def adjacent (p q : Char → Bool) : List Char → Bool
  | a :: b :: rest => (p a && q b) || adjacent p q (b :: rest)
  | _ => false

/-- Whether a colon ends a word. -/
def hasKeyMark : List Char → Bool
  | [] => false
  | c :: rest => (c == ':' && endsWord rest) || hasKeyMark rest

/-- Texts that would be taken for something other than a plain scalar. -/
def hasIndicator (cs : List Char) : Bool :=
  "---".toList.isPrefixOf cs || "...".toList.isPrefixOf cs || startsBadly cs || hasKeyMark cs ||
    adjacent isGap (· == '#') cs
where
  startsBadly : List Char → Bool
    | [] => false
    | c :: rest => isIndicator c || ((c == '?' || c == '-') && endsWord rest)

/-- Texts that only an escaped form keeps: a blank before a line break, or a character that is not
printable. -/
def needsEscapes (cs : List Char) : Bool :=
  cs.any (fun c => !isPrintable c) || adjacent (· == ' ') isBreak cs

def endsWith (p : Char → Bool) (cs : List Char) : Bool :=
  cs.getLast?.any p

namespace Form

def allowsPlain (cs : List Char) : Bool :=
  !(needsEscapes cs || cs.any isBreak || cs.head?.any (· == ' ') || endsWith (· == ' ') cs ||
    hasIndicator cs)

def allowsSingle (cs : List Char) : Bool :=
  !(needsEscapes cs || adjacent isBreak (· == ' ') cs)

def allowsLiteral (cs : List Char) : Bool :=
  !(needsEscapes cs || endsWith (· == ' ') cs)

/-- The form of a text. Several lines are wanted as a literal, what would not read back as a text is
wanted in quotes, everything else plain. -/
def of (s : String) : Form :=
  let cs := s.toList
  if cs.contains '\n' then if allowsLiteral cs then .literal else .double
  else if !Scalar.isTyped s && allowsPlain cs then .plain
  else if allowsSingle cs then .single else .double

end Form

def hexDigit (n : Nat) : Char :=
  if n < 10 then Char.ofNat ('0'.toNat + n) else Char.ofNat ('A'.toNat + n - 10)

/-- The last digits of a number in base 16. -/
def hexDigits : Nat → Nat → List Char
  | 0, _ => []
  | width + 1, n => hexDigits width (n / 16) ++ [hexDigit (n % 16)]

/-- What stands for a character after a backslash. -/
def escapeName (c : Char) : List Char :=
  match c with
  | '\x00' => ['0']
  | '\x07' => ['a']
  | '\x08' => ['b']
  | '\t' => ['t']
  | '\n' => ['n']
  | '\x0b' => ['v']
  | '\x0c' => ['f']
  | '\r' => ['r']
  | '\x1b' => ['e']
  | '"' => ['"']
  | '\\' => ['\\']
  | '\u0085' => ['N']
  | '\u2028' => ['L']
  | '\u2029' => ['P']
  | c =>
    if c.toNat < 0x100 then 'x' :: hexDigits 2 c.toNat
    else if c.toNat < 0x10000 then 'u' :: hexDigits 4 c.toNat
    else 'U' :: hexDigits 8 c.toNat

def escape (c : Char) : List Char :=
  if !isPrintable c || isBreak c || c == '"' || c == '\\' then '\\' :: escapeName c else [c]

/-- The text written so far. `spaced` says that no blank is needed before the next item, and `fresh`
that the line holds nothing but indicators. -/
structure Pen where
  text : String := ""
  column : Nat := 0
  spaced : Bool := true
  fresh : Bool := true

namespace Pen

def put (p : Pen) (c : Char) : Pen :=
  { p with text := p.text.push c, column := p.column + 1 }

def putAll (p : Pen) (cs : List Char) : Pen :=
  cs.foldl put p

/-- Ends the line with the given break. -/
def cut (p : Pen) (c : Char) : Pen :=
  { p with text := p.text.push c, column := 0 }

def pad (p : Pen) (indent : Nat) : Pen :=
  p.putAll (List.replicate (indent - p.column) ' ')

/-- Moves to an indentation, on this line if nothing stands in the way. -/
def startLine (p : Pen) (indent : Nat) : Pen :=
  let p := if !p.fresh || p.column > indent || (p.column == indent && !p.spaced) then p.cut '\n'
    else p
  { p.pad indent with spaced := true, fresh := true }

def space (p : Pen) : Pen :=
  if p.spaced then p else p.put ' '

/-- Writes an indicator after which a block may begin on the same line. -/
def opener (p : Pen) (c : Char) : Pen :=
  { p.space.put c with spaced := false }

/-- Writes an indicator that stands directly after what is there. -/
def mark (p : Pen) (c : Char) : Pen :=
  { p.put c with spaced := false, fresh := false }

/-- Writes an indicator after a blank. -/
def spacedMark (p : Pen) (c : Char) : Pen :=
  p.space.mark c

def plain (p : Pen) (cs : List Char) : Pen :=
  { p.space.putAll cs with spaced := false, fresh := false }

/-- The text between single quotes; a line that follows a break is indented. -/
def singleBody (indent : Nat) (p : Pen) (broken : Bool) : List Char → Pen × Bool
  | [] => (p, broken)
  | c :: rest =>
    if isBreak c then singleBody indent { p.cut c with fresh := true } true rest
    else if c = ' ' then singleBody indent (p.put c) broken rest
    else
      let p := if broken then p.startLine indent else p
      let p := if c = '\'' then p.put c else p
      singleBody indent { p.put c with fresh := false } false rest

def single (p : Pen) (indent : Nat) (cs : List Char) : Pen :=
  let (p, broken) := singleBody indent (p.spacedMark '\'') false cs
  let p := if broken then p.startLine indent else p
  p.mark '\''

def double (p : Pen) (cs : List Char) : Pen :=
  ((p.spacedMark '"').putAll (cs.flatMap escape)).mark '"'

/-- The lines of a literal; empty lines are not indented. -/
def literalBody (indent : Nat) (p : Pen) (broken : Bool) : List Char → Pen
  | [] => p
  | c :: rest =>
    if isBreak c then literalBody indent { p.cut c with fresh := true } true rest
    else
      let p := if broken then p.startLine indent else p
      literalBody indent { p.put c with fresh := false } false rest

/-- What a literal says about itself: its indentation if the first line does not show it, and
whether its last line breaks are kept. -/
def literalHints (cs : List Char) : List Char :=
  (if cs.head?.any fun c => c == ' ' || isBreak c then ['2'] else []) ++
    match cs.reverse with
    | [] => ['-']
    | [c] => if isBreak c then ['+'] else ['-']
    | c :: d :: _ => if !isBreak c then ['-'] else if isBreak d then ['+'] else []

def literal (p : Pen) (indent : Nat) (cs : List Char) : Pen :=
  let p := (literalHints cs).foldl mark (p.spacedMark '|')
  literalBody indent { p.cut '\n' with spaced := true, fresh := true } true cs

/-- Writes a text; `indent` is where its later lines stand. -/
def string (p : Pen) (indent : Nat) (s : String) : Pen :=
  match Form.of s with
  | .plain => p.plain s.toList
  | .single => p.single indent s.toList
  | .double => p.double s.toList
  | .literal => p.literal indent s.toList

end Pen

/-- The longest key, in bytes, that stands on the line of its value. -/
def maxKeyBytes : Nat := 128

/-- Keys that stand on the line of their value. -/
def isShortKey (s : String) : Bool :=
  s.utf8ByteSize ≤ maxKeyBytes && !s.toList.any isBreak

/-- Where a block stands in one that stands at `outer`. -/
def inner : Option Nat → Nat
  | none => 0
  | some n => n + 2

/-- Where the later lines of a scalar stand. -/
def scalarIndent (outer : Option Nat) : Nat :=
  outer.getD 0 + 2

mutual

/-- Writes a value in a block at `outer`. A list stands directly under the key that it belongs
to. -/
def writeNode (outer : Option Nat) (underKey : Bool) (p : Pen) : Value → Pen
  | .null => p.plain "null".toList
  | .bool b => p.plain (if b then "true" else "false").toList
  | .int n => p.plain (toString n).toList
  | .float x => p.plain x.render.toList
  | .string s => p.string (scalarIndent outer) s
  | .list [] => (p.spacedMark '[').mark ']'
  | .list (v :: rest) =>
    writeItems (if underKey && !p.fresh then outer.getD 0 else inner outer) p (v :: rest)
  | .object [] => (p.spacedMark '\x7b').mark '\x7d'
  | .object (f :: rest) => writeFields (inner outer) p (f :: rest)

def writeItems (indent : Nat) (p : Pen) : List Value → Pen
  | [] => p
  | v :: rest =>
    writeItems indent (writeNode (some indent) false ((p.startLine indent).opener '-') v) rest

def writeFields (indent : Nat) (p : Pen) : List (String × Value) → Pen
  | [] => p
  | (k, v) :: rest =>
    let p := p.startLine indent
    let p := if isShortKey k then (p.string (indent + 2) k).mark ':'
      else (((p.opener '?').string (indent + 2) k).startLine indent).opener ':'
    writeFields indent (writeNode (some indent) true p v) rest

end

/-- The indented text of a value. -/
def write (v : Value) : String :=
  ((writeNode none false {} v).startLine 0).text

end Apidoc.Yaml
