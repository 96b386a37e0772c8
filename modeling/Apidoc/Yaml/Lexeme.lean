import Apidoc.Text.Digit
import Apidoc.Yaml.Cursor

namespace Apidoc.Yaml

def isFlowMark (c : Char) : Bool :=
  [',', '[', ']', '\x7b', '\x7d'].contains c

/-- The word of a plain scalar that starts here. Inside brackets a colon must not stand before
another mark. -/
def plainWord? (inFlow : Bool) : List Char → Option (List Char)
  | [] => some []
  | c :: rest =>
    if isGap c then some []
    else if inFlow && c == ':' && rest.head?.any (fun d => isFlowMark d || d == '?') then none
    else if (c == ':' && endsWord rest) || (inFlow && isFlowMark c) then some []
    else (plainWord? inFlow rest).map (c :: ·)

/-- The words of a plain scalar after `text` and a gap. The last component says whether the scalar
ends after a line break. -/
def plainWords? (inFlow : Bool) (margin : Nat) :
    Nat → List Char → Gap → Cursor → Option (List Char × Cursor × Bool)
  | 0, _, _, _ => none
  | fuel + 1, text, gap, c =>
    if c.isAtDocumentStart || c.isAtDocumentEnd || c.starts (· == '#') then
      some (text, c, gap.isBroken)
    else do
      let word ← plainWord? inFlow c.rest
      if word.isEmpty then return (text, c, gap.isBroken)
      let text := text ++ gap.text ++ word
      let c := c.advance word.length
      if !(c.starts isBlank || c.starts isBreak) then return (text, c, false)
      let (gap, c) ← Gap.read? margin (c.rest.length + 1) {} c
      if !inFlow && c.column < margin then return (text, c, gap.isBroken)
      plainWords? inFlow margin fuel text gap c

def plainScalar? (inFlow : Bool) (margin : Nat) (c : Cursor) : Option (List Char × Cursor × Bool) :=
  plainWords? inFlow margin (c.rest.length + 1) [] {} c

/-- The number of so many digits in base 16. -/
def hexNumber? : Nat → Nat → List Char → Option (Nat × List Char)
  | 0, n, cs => some (n, cs)
  | width + 1, n, c :: cs => do hexNumber? width (n * 16 + (← Text.digitValue? c)) cs
  | _, _, [] => none

def escapedChar? : Char → Option Char
  | '0' => some '\x00'
  | 'a' => some '\x07'
  | 'b' => some '\x08'
  | 't' => some '\t'
  | '\t' => some '\t'
  | 'n' => some '\n'
  | 'v' => some '\x0b'
  | 'f' => some '\x0c'
  | 'r' => some '\r'
  | 'e' => some '\x1b'
  | ' ' => some ' '
  | '"' => some '"'
  | '/' => some '/'
  | '\\' => some '\\'
  | 'N' => some '\u0085'
  | '_' => some '\u00a0'
  | 'L' => some '\u2028'
  | 'P' => some '\u2029'
  | _ => none

def escapeWidth? : Char → Option Nat
  | 'x' => some 2
  | 'u' => some 4
  | 'U' => some 8
  | _ => none

/-- The character that stands after a backslash. -/
def escape? : List Char → Option (Char × List Char)
  | [] => none
  | c :: rest =>
    match escapeWidth? c with
    | none => (escapedChar? c).map (·, rest)
    | some width => do
      let (n, rest) ← hexNumber? width 0 rest
      if n.isValidChar then return (Char.ofNat n, rest) else none

/-- What ends a word of a quoted scalar. -/
inductive WordEnd where
  | quote
  | gap
  | hiddenBreak

def singleWord : List Char → List Char × List Char × WordEnd
  | [] => ([], [], .gap)
  | '\'' :: '\'' :: rest =>
    let (word, rest, stop) := singleWord rest
    ('\'' :: word, rest, stop)
  | c :: rest =>
    if c == '\'' then ([], c :: rest, .quote)
    else if isGap c then ([], c :: rest, .gap)
    else
      let (word, rest, stop) := singleWord rest
      (c :: word, rest, stop)

def doubleWord? : Nat → List Char → Option (List Char × List Char × WordEnd)
  | 0, _ => none
  | _, [] => some ([], [], .gap)
  | fuel + 1, c :: rest =>
    if c == '"' then some ([], c :: rest, .quote)
    else if isGap c then some ([], c :: rest, .gap)
    else if c == '\\' then
      if rest.head?.any isBreak then some ([], rest, .hiddenBreak)
      else do
        let (c, rest) ← escape? rest
        let (word, rest, stop) ← doubleWord? fuel rest
        return (c :: word, rest, stop)
    else do
      let (word, rest, stop) ← doubleWord? fuel rest
      return (c :: word, rest, stop)

/-- The words of a quoted scalar after `text`, up to the closing quote. -/
def quotedWords? (isSingle : Bool) : Nat → List Char → Cursor → Option (List Char × Cursor)
  | 0, _, _ => none
  | fuel + 1, text, c =>
    if c.isAtDocumentStart || c.isAtDocumentEnd || c.isAtEnd then none
    else do
      let (word, rest, stop) ←
        if isSingle then some (singleWord c.rest) else doubleWord? (c.rest.length + 1) c.rest
      let c := c.upTo rest
      let text := text ++ word
      match stop with
      | .quote => return (text, c.advance 1)
      | .gap =>
        let (gap, c) ← Gap.read? 0 (c.rest.length + 1) {} c
        quotedWords? isSingle fuel (text ++ gap.text) c
      | .hiddenBreak =>
        let c := c.skipBreak
        if c.starts (· == '"') then return (text, c.advance 1)
        let (gap, c) ← Gap.read? 0 (c.rest.length + 1) { isBroken := true } c
        quotedWords? isSingle fuel (text ++ gap.text) c

def quotedScalar? (isSingle : Bool) (c : Cursor) : Option (List Char × Cursor) :=
  quotedWords? isSingle (c.rest.length + 1) [] (c.advance 1)

/-- Which of the last line breaks of a block scalar are kept. -/
inductive Chomp where
  | clip
  | strip
  | keep
  deriving DecidableEq

def chomp? (c : Cursor) : Option (Chomp × Cursor) :=
  match c.rest with
  | '+' :: _ => some (.keep, c.advance 1)
  | '-' :: _ => some (.strip, c.advance 1)
  | _ => none

def digit? (c : Cursor) : Option (Nat × Cursor) :=
  match c.rest with
  | d :: _ => if d.isDigit then some (d.toNat - '0'.toNat, c.advance 1) else none
  | [] => none

/-- The chomping and the indentation that a block scalar announces, in either order. -/
def blockHeader? (c : Cursor) : Option (Chomp × Option Nat × Cursor) := do
  let (chomp, step, c) :=
    match chomp? c with
    | some (chomp, c) =>
      match digit? c with
      | some (d, c) => (chomp, some d, c)
      | none => (chomp, none, c)
    | none =>
      match digit? c with
      | some (d, c) =>
        match chomp? c with
        | some (chomp, c) => (chomp, some d, c)
        | none => (.clip, some d, c)
      | none => (.clip, none, c)
  if step = some 0 then none
  return (chomp, step, ← c.endLine?)

/-- Reads empty lines and the indentation of the next line, which ends at `indent` if that is known.
Returns the line breaks and the deepest indentation. -/
def blockBreaks? (indent : Option Nat) :
    Nat → List Char → Nat → Cursor → Option (List Char × Nat × Cursor)
  | 0, breaks, deepest, c => some (breaks, deepest, c)
  | fuel + 1, breaks, deepest, c =>
    let blanks := (c.rest.takeWhile (· == ' ')).length
    let c := c.advance (match indent with
      | some n => min blanks (n - c.column)
      | none => blanks)
    let deepest := max deepest c.column
    if c.starts (· == '\t') && (match indent with
      | some n => c.column < n
      | none => true) then none
    else match c.break? with
      | some (b, c) => blockBreaks? indent fuel (breaks ++ [b]) deepest c
      | none => some (breaks, deepest, c)

/-- The text between two lines of a folded scalar is a blank, unless one of them starts with a
blank. -/
def foldBreaks (first more : List Char) (isSpaced : Bool) : List Char :=
  if first = ['\n'] && !isSpaced then if more.isEmpty then [' '] else more else first ++ more

/-- The lines of a block scalar after `text`, with the line breaks before them. -/
def blockLines? (isFolded : Bool) (indent : Nat) :
    Nat → List Char → List Char → List Char → Bool → Cursor →
      Option (List Char × List Char × List Char × Cursor)
  | 0, _, _, _, _, _ => none
  | fuel + 1, text, first, more, isSpaced, c =>
    if c.column ≠ indent || c.isAtEnd then some (text, first, more, c)
    else do
      let startsBlank := c.starts isBlank
      let breaks := foldBreaks first more (!isFolded || isSpaced || startsBlank)
      let line := c.rest.takeWhile (!isBreak ·)
      let c := c.advance line.length
      let (first, c) := match c.break? with
        | some (b, c) => ([b], c)
        | none => ([], c)
      let (more, _, c) ← blockBreaks? (some indent) (c.rest.length + 1) [] 0 c
      blockLines? isFolded indent fuel (text ++ breaks ++ line) first more startsBlank c

/-- A block scalar in a block at `outer`. -/
def blockScalar? (isFolded : Bool) (outer : Option Nat) (c : Cursor) :
    Option (List Char × Cursor) := do
  let (chomp, step, c) ← blockHeader? (c.advance 1)
  let announced := step.map (outer.getD 0 + ·)
  let (more, deepest, c) ← blockBreaks? announced (c.rest.length + 1) [] 0 c
  let indent := announced.getD (max deepest (max 1 (outer.elim 0 (· + 1))))
  let (text, first, more, c) ← blockLines? isFolded indent (c.rest.length + 1) [] [] more false c
  return (text ++ (if chomp = .strip then [] else first) ++ (if chomp = .keep then more else []), c)

def isWordChar (c : Char) : Bool :=
  c.isAlphanum || c == '_' || c == '-'

/-- The name after the mark of an anchor or an alias. -/
def anchorName? (c : Cursor) : Option (String × Cursor) :=
  let name := (c.rest.drop 1).takeWhile isWordChar
  let c := c.advance (1 + name.length)
  if name.isEmpty then none
  else if endsWord c.rest || c.starts (['?', ':', ',', ']', '\x7d', '%', '@', '`'].contains ·) then
    some (String.ofList name, c)
  else none

def isTagChar (isVerbatim : Bool) (c : Char) : Bool :=
  isWordChar c ||
  [';', '/', '?', ':', '@', '&', '=', '+', '$', '.', '!', '~', '*', '\'', '(', ')'].contains c ||
  (isVerbatim && [',', '[', ']'].contains c)

/-- The bytes of the text of a tag. -/
def tagBytes? (isVerbatim : Bool) : Nat → List Char → Option (List UInt8 × List Char)
  | 0, _ => none
  | fuel + 1, '%' :: rest => do
    let (n, rest) ← hexNumber? 2 0 rest
    let (bytes, rest) ← tagBytes? isVerbatim fuel rest
    return (UInt8.ofNat n :: bytes, rest)
  | fuel + 1, c :: rest =>
    if isTagChar isVerbatim c then do
      let (bytes, rest) ← tagBytes? isVerbatim fuel rest
      return (UInt8.ofNat c.toNat :: bytes, rest)
    else some ([], c :: rest)
  | _, [] => some ([], [])

/-- The text of a tag, in which escapes stand for the bytes of a text. -/
def tagText? (isVerbatim : Bool) (cs : List Char) : Option (String × List Char) := do
  let (bytes, rest) ← tagBytes? isVerbatim (cs.length + 1) cs
  return (← String.fromUTF8? ⟨bytes.toArray⟩, rest)

/-- The handle of a tag, from its first mark to the second one, if there is one. -/
def tagHandle (cs : List Char) : List Char × List Char :=
  let name := (cs.drop 1).takeWhile isWordChar
  let rest := cs.drop (1 + name.length)
  match rest with
  | '!' :: rest => ('!' :: name ++ ['!'], rest)
  | rest => ('!' :: name, rest)

/-- A tag as a handle and a suffix. -/
def tag? (inFlow : Bool) (c : Cursor) : Option (String × String × Cursor) := do
  let (handle, suffix, rest) ←
    match c.rest with
    | '!' :: '<' :: rest => do
      let (text, rest) ← tagText? true rest
      match rest with
      | '>' :: rest => if text = "" then none else some ("", text, rest)
      | _ => none
    | cs => do
      let (handle, rest) := tagHandle cs
      if handle.length > 1 && handle.getLast? == some '!' then
        let (text, rest) ← tagText? false rest
        if text = "" then none else some (String.ofList handle, text, rest)
      else
        let (text, rest) ← tagText? false rest
        let suffix := String.ofList (handle.drop 1) ++ text
        if suffix = "" then some ("", "!", rest) else some ("!", suffix, rest)
  if endsWord rest || (inFlow && rest.head? == some ',') then
    return (handle, suffix, c.upTo rest)
  else none

inductive Directive where
  | version (major minor : Nat)
  | tag (handle start : String)
  deriving DecidableEq

/-- Up to nine digits. -/
def versionNumber? (cs : List Char) : Option (Nat × List Char) :=
  let digits := cs.takeWhile Char.isDigit
  if digits.isEmpty || digits.length > 9 then none
  else some (digits.foldl (fun n d => n * 10 + (d.toNat - '0'.toNat)) 0, cs.drop digits.length)

def directiveBody? (name : String) (cs : List Char) : Option (Directive × List Char) :=
  if name = "YAML" then do
    let (major, rest) ← versionNumber? cs
    match rest with
    | '.' :: rest =>
      let (minor, rest) ← versionNumber? rest
      return (.version major minor, rest)
    | _ => none
  else if name = "TAG" then
    match cs with
    | '!' :: _ => do
      let (handle, rest) := tagHandle cs
      if handle.length > 1 && handle.getLast? != some '!' then none
      if !rest.head?.any isBlank then none
      let (start, rest) ← tagText? true (rest.dropWhile isBlank)
      if start = "" || !endsWord rest then none
      return (.tag (String.ofList handle) start, rest)
    | _ => none
  else none

/-- The directive on a line. -/
def directive? (c : Cursor) : Option (Directive × Cursor) := do
  let c := c.advance 1
  let name := c.rest.takeWhile isWordChar
  let c := c.advance name.length
  if name.isEmpty || !endsWord c.rest then none
  let c := c.skipWhile isBlank
  let (directive, rest) ← directiveBody? (String.ofList name) c.rest
  return (directive, ← (c.upTo rest).endLine?)

end Apidoc.Yaml
