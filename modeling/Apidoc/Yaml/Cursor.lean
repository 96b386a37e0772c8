import Apidoc.Yaml.Character

namespace Apidoc.Yaml

structure Cursor where
  rest : List Char
  index : Nat := 0
  line : Nat := 0
  column : Nat := 0

namespace Cursor

/-- Passes over characters of the same line. -/
def advance (c : Cursor) (n : Nat) : Cursor :=
  { c with rest := c.rest.drop n, index := c.index + n, column := c.column + n }

/-- Passes over all characters of the same line before `rest`. -/
def upTo (c : Cursor) (rest : List Char) : Cursor :=
  c.advance (c.rest.length - rest.length)

def skipWhile (c : Cursor) (p : Char → Bool) : Cursor :=
  c.upTo (c.rest.dropWhile p)

def isAtEnd (c : Cursor) : Bool := c.rest.isEmpty

def starts (c : Cursor) (p : Char → Bool) : Bool :=
  c.rest.head?.any p

/-- The line break that starts here, as it counts in a text, and the place after it. -/
def break? (c : Cursor) : Option (Char × Cursor) :=
  match c.rest with
  | '\r' :: '\n' :: rest => some ('\n', next 2 rest)
  | ch :: rest =>
    if !isBreak ch then none
    else if ch == '\u2028' || ch == '\u2029' then some (ch, next 1 rest)
    else some ('\n', next 1 rest)
  | [] => none
where
  next (n : Nat) (rest : List Char) : Cursor :=
    { rest := rest, index := c.index + n, line := c.line + 1, column := 0 }

def skipBreak (c : Cursor) : Cursor :=
  match c.break? with
  | some (_, c) => c
  | none => c

/-- Passes over the blanks and the comment that end a line, and its line break. -/
def endLine? (c : Cursor) : Option Cursor :=
  let c := c.skipWhile isBlank
  let c := if c.starts (· == '#') then c.skipWhile (!isBreak ·) else c
  if c.isAtEnd || c.starts isBreak then some c.skipBreak else none

/-- Whether one of the lines that separate documents starts here. -/
def isAtMark (c : Cursor) (mark : List Char) : Bool :=
  c.column == 0 && mark.isPrefixOf c.rest && endsWord (c.rest.drop mark.length)

def isAtDocumentStart (c : Cursor) : Bool := c.isAtMark ['-', '-', '-']

def isAtDocumentEnd (c : Cursor) : Bool := c.isAtMark ['.', '.', '.']

end Cursor

/-- What stands between two words: blanks, or line breaks of which the first may be hidden. -/
structure Gap where
  blanks : List Char := []
  isBroken : Bool := false
  first : List Char := []
  more : List Char := []

namespace Gap

/-- What a gap leaves in the text. A single line break counts as a blank, and of several the first
is dropped. -/
def text (g : Gap) : List Char :=
  if !g.isBroken then g.blanks
  else if g.first = ['\n'] then if g.more.isEmpty then [' '] else g.more
  else g.first ++ g.more

def addBreak (g : Gap) (b : Char) : Gap :=
  if g.isBroken then { g with more := g.more ++ [b] }
  else { g with blanks := [], isBroken := true, first := [b] }

/-- Reads a gap to its end. After a line break no tab may stand left of `margin`. -/
def read? (margin : Nat) : Nat → Gap → Cursor → Option (Gap × Cursor)
  | 0, g, c => some (g, c)
  | fuel + 1, g, c =>
    match c.break? with
    | some (b, c) => read? margin fuel (g.addBreak b) c
    | none =>
      match c.rest with
      | ch :: _ =>
        if !isBlank ch then some (g, c)
        else if !g.isBroken then
          read? margin fuel { g with blanks := g.blanks ++ [ch] } (c.advance 1)
        else if ch == '\t' && c.column < margin then none
        else read? margin fuel g (c.advance 1)
      | [] => some (g, c)

end Gap

end Apidoc.Yaml
