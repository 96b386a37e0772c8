import Apidoc.Source.Token

namespace Apidoc.Source

/-- A parsing expression over the rules `R`. -/
inductive Peg (R : Type) where
  | done
  | token (p : Token → Bool)
  | rule (r : R)
  | seq (a b : Peg R)
  | alt (a b : Peg R)
  | many (a : Peg R)
  | unless (a : Peg R)

/-- What a run consumed. -/
inductive Tree (R : Type) where
  | leaf (t : Token)
  | node (r : R) (children : List (Tree R))

namespace Peg

variable {R : Type}

/-- Runs an expression: the trees of what it consumed, and the tokens that are left. -/
def run (body : R → Peg R) : Nat → Peg R → List Token → Option (List (Tree R) × List Token)
  | 0, _, _ => none
  | fuel + 1, p, ts =>
    match p with
    | .done => some ([], ts)
    | .token accepts =>
      match ts with
      | t :: rest => if accepts t then some ([.leaf t], rest) else none
      | [] => none
    | .rule r =>
      match run body fuel (body r) ts with
      | some (children, rest) => some ([.node r children], rest)
      | none => none
    | .seq a b =>
      match run body fuel a ts with
      | some (x, rest) =>
        match run body fuel b rest with
        | some (y, rest) => some (x ++ y, rest)
        | none => none
      | none => none
    | .alt a b =>
      match run body fuel a ts with
      | some r => some r
      | none => run body fuel b ts
    | .many a =>
      match run body fuel a ts with
      | some (x, rest) =>
        match run body fuel (.many a) rest with
        | some (y, rest) => some (x ++ y, rest)
        | none => none
      | none => some ([], ts)
    | .unless a =>
      match run body fuel a ts with
      | some _ => none
      | none => some ([], ts)

/-- Matches nothing at all. -/
def fail : Peg R := .token fun _ => false

def all : List (Peg R) → Peg R
  | [] => .done
  | [p] => p
  | p :: ps => .seq p (all ps)

def first : List (Peg R) → Peg R
  | [] => fail
  | [p] => p
  | p :: ps => .alt p (first ps)

def opt (p : Peg R) : Peg R := .alt p .done

/-- Positive lookahead. -/
def ahead (p : Peg R) : Peg R := .unless (.unless p)

/-- Items with a separator between them, and perhaps one after the last. -/
def listOf (item separator : Peg R) : Peg R :=
  opt (all [item, .many (all [separator, item]), opt separator])

/-- Items with a separator between them. -/
def chain (item separator : Peg R) : Peg R :=
  .seq item (.many (.seq separator item))

/-- The word `w`. -/
def word (w : String) : Peg R :=
  .token fun t => match t with
    | .ident name => name == w
    | _ => false

def char (c : Char) (joint : Bool) : Peg R :=
  .token fun t => match t with
    | .punct d j => d == c && (j || !joint)
    | _ => false

def chars : List Char → Peg R
  | [] => .done
  | [c] => char c false
  | c :: cs => .seq (char c true) (chars cs)

/-- The operator made of the characters of `s` without blanks between them. -/
def op (s : String) : Peg R := chars s.toList

def openDelim (d : Delimiter) : Peg R :=
  .token fun t => t == .opening d

def closeDelim (d : Delimiter) : Peg R :=
  .token fun t => t == .closing d

def within (d : Delimiter) (p : Peg R) : Peg R :=
  all [openDelim d, p, closeDelim d]

/-- Any identifier, words of the language included. -/
def anyWord : Peg R :=
  .token fun t => match t with
    | .ident _ => true
    | _ => false

def anyToken : Peg R :=
  .token fun t => match t with
    | .opening _ => false
    | .closing _ => false
    | _ => true

/-- The steps that a run over `n` tokens may nest. -/
def fuelFor (n : Nat) : Nat := 2000 * (n + 1)

/-- The trees of an expression that consumes all tokens. -/
def parse? (body : R → Peg R) (p : Peg R) (ts : List Token) : Option (List (Tree R)) :=
  match run body (fuelFor ts.length) p ts with
  | some (trees, []) => some trees
  | _ => none

end Peg

end Apidoc.Source
