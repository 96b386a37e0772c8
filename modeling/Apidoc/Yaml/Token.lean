import Apidoc.Value
import Apidoc.Yaml.Lexeme

/-!
Blocks show only in the columns of a text, so the tokens that open and close them are added here. A
key is known by the colon after it: the place of everything that may be a key is kept until its
colon is found or can no longer come.
-/

namespace Apidoc.Yaml

inductive Token where
  | directive (d : Directive)
  | documentStart
  | documentEnd
  | blockSequence
  | blockMapping
  | blockEnd
  | openBracket
  | closeBracket
  | openBrace
  | closeBrace
  | comma
  | item
  | key
  | value
  | alias (name : String)
  | anchor (name : String)
  | tag (handle suffix : String)
  | scalar (text : String) (style : ScalarStyle)
  deriving DecidableEq

/-- Where something begins that may turn out to be a key. A required one cannot be anything else. -/
structure KeyPlace where
  isRequired : Bool
  position : Nat
  index : Nat
  line : Nat
  column : Nat

/-- How many characters a key may take up. -/
def maxKeyLength : Nat := 1024

/-- The tokens read so far. `blocks` holds the columns of the open blocks, the innermost first;
`keys` holds the place of a possible key for each open bracket, the innermost first, and `key` the
one outside of them or inside the innermost. -/
structure Lexer where
  cursor : Cursor
  tokens : Array Token := #[]
  blocks : List Nat := []
  key : Option KeyPlace := none
  keys : List (Option KeyPlace) := []
  allowsKey : Bool := true

namespace Lexer

def inFlow (s : Lexer) : Bool := !s.keys.isEmpty

def emit (s : Lexer) (t : Token) : Lexer :=
  { s with tokens := s.tokens.push t }

/-- A token of so many characters. -/
def mark (s : Lexer) (n : Nat) (t : Token) : Lexer :=
  { s with cursor := s.cursor.advance n, tokens := s.tokens.push t }

def setAllowsKey (s : Lexer) (b : Bool) : Lexer :=
  { s with allowsKey := b }

/-- Closes the open blocks that satisfy `p`. -/
def closeBlocks (s : Lexer) (p : Nat → Bool) : Lexer :=
  if s.inFlow then s
  else { s with
    blocks := s.blocks.dropWhile p
    tokens := s.tokens ++ Array.replicate (s.blocks.takeWhile p).length Token.blockEnd }

/-- Opens a block at a column right of all open blocks; its token goes to the given position. -/
def openBlock (s : Lexer) (column position : Nat) (t : Token) : Lexer :=
  if s.inFlow || s.blocks.head?.any (column ≤ ·) then s
  else { s with
    blocks := column :: s.blocks
    tokens := s.tokens.insertIdxIfInBounds position t }

/-- Gives up the place of a possible key. -/
def dropKey? (s : Lexer) : Option Lexer :=
  if s.key.any (·.isRequired) then none else some { s with key := none }

/-- Notes that a key may begin here. -/
def noteKey? (s : Lexer) : Option Lexer :=
  if !s.allowsKey then some s
  else do
    let place : KeyPlace :=
      { isRequired := !s.inFlow && s.blocks.head? == some s.cursor.column
        position := s.tokens.size
        index := s.cursor.index
        line := s.cursor.line
        column := s.cursor.column }
    return { (← s.dropKey?) with key := some place }

/-- Whether the colon of a key can still come. -/
def isCurrent (c : Cursor) (k : KeyPlace) : Bool :=
  c.line ≤ k.line && c.index ≤ k.index + maxKeyLength

/-- Gives up the places of keys whose colon can no longer come. -/
def dropStaleKeys? (s : Lexer) : Option Lexer :=
  if (s.key :: s.keys).any fun k => k.any fun k => k.isRequired && !isCurrent s.cursor k then none
  else some { s with
    key := s.key.filter (isCurrent s.cursor)
    keys := s.keys.map (·.filter (isCurrent s.cursor)) }

/-- Passes over blanks, comments and line breaks to the next token. -/
def toNextToken : Nat → Lexer → Lexer
  | 0, s => s
  | fuel + 1, s =>
    let c := s.cursor.skipWhile fun ch => ch == ' ' || ((s.inFlow || !s.allowsKey) && ch == '\t')
    let c := if c.starts (· == '#') then c.skipWhile (!isBreak ·) else c
    match c.break? with
    | some (_, c) => toNextToken fuel { s with cursor := c, allowsKey := s.allowsKey || !s.inFlow }
    | none => { s with cursor := c }

/-- A line that belongs to no block: it closes all of them. -/
def outside? (s : Lexer) : Option Lexer := do
  let s ← (s.closeBlocks fun _ => true).dropKey?
  return s.setAllowsKey false

def openFlow? (s : Lexer) (t : Token) : Option Lexer := do
  let s ← s.noteKey?
  return { s with key := none, keys := s.key :: s.keys, allowsKey := true }.mark 1 t

def closeFlow? (s : Lexer) (t : Token) : Option Lexer := do
  let s ← s.dropKey?
  let s := match s.keys with
    | k :: keys => { s with key := k, keys := keys }
    | [] => s
  return (s.setAllowsKey false).mark 1 t

def comma? (s : Lexer) : Option Lexer := do
  return ((← s.dropKey?).setAllowsKey true).mark 1 .comma

/-- A dash or a question mark, which may open a block. -/
def blockMark? (s : Lexer) (block t : Token) (allowsKey : Bool) : Option Lexer := do
  if !s.inFlow && !s.allowsKey then none
  let s ← (s.openBlock s.cursor.column s.tokens.size block).dropKey?
  return (s.setAllowsKey allowsKey).mark 1 t

/-- A colon, which makes a key of what began at the place of a possible key. -/
def value? (s : Lexer) : Option Lexer :=
  match s.key with
  | some k =>
    let s := { s with
      key := none
      tokens := s.tokens.insertIdxIfInBounds k.position .key
      allowsKey := false }
    some ((s.openBlock k.column k.position .blockMapping).mark 1 .value)
  | none =>
    if !s.inFlow && !s.allowsKey then none
    else some (((s.openBlock s.cursor.column s.tokens.size .blockMapping).setAllowsKey
      !s.inFlow).mark 1 .value)

/-- A lexeme that may be or begin a key. -/
def lexeme? (s : Lexer) (read : Cursor → Option (Token × Cursor)) : Option Lexer := do
  let s ← s.noteKey?
  let (t, c) ← read s.cursor
  return { s with cursor := c, allowsKey := false }.emit t

def plain? (s : Lexer) : Option Lexer := do
  let s ← s.noteKey?
  let margin := s.blocks.head?.elim 0 (· + 1)
  let (text, c, isBroken) ← plainScalar? s.inFlow margin s.cursor
  return { s with cursor := c, allowsKey := isBroken }.emit (.scalar (String.ofList text) .plain)

def block? (s : Lexer) (isFolded : Bool) : Option Lexer := do
  let s ← s.dropKey?
  let (text, c) ← blockScalar? isFolded s.blocks.head? s.cursor
  let style := if isFolded then ScalarStyle.quoted else .literal
  return { s with cursor := c, allowsKey := true }.emit (.scalar (String.ofList text) style)

def directiveLine? (s : Lexer) : Option Lexer := do
  let s ← s.outside?
  let (d, c) ← directive? s.cursor
  return { s with cursor := c }.emit (.directive d)

def quoted (isSingle : Bool) (c : Cursor) : Option (Token × Cursor) :=
  (quotedScalar? isSingle c).map fun (text, c) => (.scalar (String.ofList text) .quoted, c)

def named (token : String → Token) (c : Cursor) : Option (Token × Cursor) :=
  (anchorName? c).map fun (name, c) => (token name, c)

/-- Whether a plain scalar begins with these characters. -/
def startsPlain (inFlow : Bool) (c : Char) (rest : List Char) : Bool :=
  if c == '-' then !rest.head?.any isBlank
  else if c == '?' || c == ':' then !inFlow && !endsWord rest
  else !isGap c && !isIndicator c

/-- The next token begins with `c`. -/
def token? (s : Lexer) (c : Char) (rest : List Char) : Option Lexer :=
  if s.cursor.column == 0 && c == '%' then s.directiveLine?
  else if s.cursor.isAtDocumentStart then (·.mark 3 .documentStart) <$> s.outside?
  else if s.cursor.isAtDocumentEnd then (·.mark 3 .documentEnd) <$> s.outside?
  else if c == '[' then s.openFlow? .openBracket
  else if c == '\x7b' then s.openFlow? .openBrace
  else if c == ']' then s.closeFlow? .closeBracket
  else if c == '\x7d' then s.closeFlow? .closeBrace
  else if c == ',' then s.comma?
  else if c == '-' && endsWord rest then s.blockMark? .blockSequence .item true
  else if c == '?' && (s.inFlow || endsWord rest) then s.blockMark? .blockMapping .key !s.inFlow
  else if c == ':' && (s.inFlow || endsWord rest) then s.value?
  else if c == '*' then s.lexeme? (named .alias)
  else if c == '&' then s.lexeme? (named .anchor)
  else if c == '!' then
    s.lexeme? fun c => (tag? s.inFlow c).map fun (handle, suffix, c) => (.tag handle suffix, c)
  else if c == '|' && !s.inFlow then s.block? false
  else if c == '>' && !s.inFlow then s.block? true
  else if c == '\'' then s.lexeme? (quoted true)
  else if c == '"' then s.lexeme? (quoted false)
  else if startsPlain s.inFlow c rest then s.plain?
  else none

/-- Reads tokens to the end of the text. -/
def tokens? : Nat → Lexer → Option (List Token)
  | 0, _ => none
  | fuel + 1, s => do
    let s ← (s.toNextToken (s.cursor.rest.length + 1)).dropStaleKeys?
    let s := s.closeBlocks (s.cursor.column < ·)
    match s.cursor.rest with
    | [] => return (← s.outside?).tokens.toList
    | c :: rest => tokens? fuel (← s.token? c rest)

end Lexer

/-- The tokens of a text. A mark of the byte order may begin it. -/
def tokens? (text : String) : Option (List Token) :=
  let cs := match text.toList with
    | '\ufeff' :: rest => rest
    | cs => cs
  if cs.all isReadable then Lexer.tokens? (cs.length + 1) { cursor := { rest := cs } } else none

end Apidoc.Yaml
