import Apidoc.Model

namespace Apidoc.Source

open Rule

/-- What serialization marks say about a field or a variant. -/
structure Marks where
  rename : Option String := none
  skip : Bool := false
  deriving DecidableEq

mutual

/-- The tokens that a tree consumed. -/
def treeTokens : Tree Rule → List Token
  | .leaf t => [t]
  | .node _ children => allTokens children

def allTokens : List (Tree Rule) → List Token
  | [] => []
  | t :: ts => treeTokens t ++ allTokens ts

end

/-- The path that begins here; one identifier without a leading separator is a name. -/
def markPath? (ts : List Token) : Option (Option String × List Token) :=
  let path := Peg.all [.rule .metaPath, .unless (Peg.op "::")]
  match Peg.run body (Peg.fuelFor ts.length) path ts with
  | some ([.node .metaPath [.leaf (.ident name)]], rest) => some (some name, rest)
  | some (_, rest) => some (none, rest)
  | none => none

/-- What follows the expression that begins here. -/
def skipExpr? (ts : List Token) : Option (List Token) :=
  (Peg.run body (Peg.fuelFor ts.length) anyExpr ts).map (·.2)

/-- Reads one mark. The new marks count even if what follows it makes no sense. -/
def readMark (marks : Marks) (ts : List Token) : Marks × Option (List Token) :=
  match markPath? ts with
  | none => (marks, none)
  | some (some "rename", .punct '=' _ :: .literal (.string value) :: rest) =>
    ({ marks with rename := some value }, some rest)
  | some (some "rename", _) => (marks, none)
  | some (name, rest) =>
    if name = some "skip" ∨ name = some "skip_serializing" then
      ({ marks with skip := true }, some rest)
    else match rest with
      | .punct '=' _ :: value => (marks, skipExpr? value)
      | rest => (marks, some rest)

/-- Reads the marks of one attribute, separated by commas, up to the first that is malformed. -/
def readMarks : Nat → Marks → List Token → Marks
  | 0, marks, _ => marks
  | fuel + 1, marks, ts =>
    match readMark marks ts with
    | (marks, some (.punct ',' _ :: rest)) =>
      if rest.isEmpty then marks else readMarks fuel marks rest
    | (marks, _) => marks

/-- Adds the marks of an attribute. -/
def addMarks (marks : Marks) : Tree Rule → Marks
  | .node .attr [_, _, .node .metaItem (.node .metaPath [.leaf (.ident "serde")] ::
      .leaf (.opening _) :: inner), _] =>
    let ts := (allTokens inner).dropLast
    if ts.isEmpty then marks else readMarks ts.length marks ts
  | _ => marks

def marksOf (children : List (Tree Rule)) : Marks :=
  children.foldl addMarks {}

/-- The first identifier among the children, the name of a field or a variant. -/
def nameOf? : List (Tree Rule) → Option String
  | [] => none
  | .leaf (.ident name) :: _ => some name
  | _ :: ts => nameOf? ts

def fieldType? : List (Tree Rule) → Option TypeRef
  | [] => none
  | .node (.type plus) ts :: _ => typeOf? (.node (.type plus) ts)
  | _ :: ts => fieldType? ts

/-- The documented field of a tree. -/
def fieldOf? : Tree Rule → Option Field
  | .node .field children =>
    let marks := marksOf children
    if marks.skip then none
    else (nameOf? children).map fun name => ⟨marks.rename.getD name, fieldType? children⟩
  | _ => none

/-- The documented name of a variant. -/
def variantOf? : Tree Rule → Option String
  | .node .variant children =>
    let marks := marksOf children
    if marks.skip then none else (nameOf? children).map (marks.rename.getD ·)
  | _ => none

/-- The definition that an item itself makes. -/
def ownDefinition : Rule → List (Tree Rule) → List Definition
  | .structItem, _ :: .leaf (.ident name) :: children =>
    [⟨name, .record (children.filterMap fieldOf?)⟩]
  | .enumItem, _ :: .leaf (.ident name) :: children =>
    [⟨name, .choice (children.filterMap variantOf?)⟩]
  | _, _ => []

mutual

/-- The definitions in a tree, an outer one before those nested in it. -/
def definitionsIn : Tree Rule → List Definition
  | .leaf _ => []
  | .node r children => ownDefinition r children ++ definitionsInAll children

def definitionsInAll : List (Tree Rule) → List Definition
  | [] => []
  | t :: ts => definitionsIn t ++ definitionsInAll ts

end

def isItem : Tree Rule → Bool
  | .node .item _ => true
  | _ => false

end Apidoc.Source

namespace Apidoc

/-- What is known of a model source: how many items it has, and the definitions in it. -/
structure ModelSource where
  items : Nat
  definitions : List Definition

/-- Reads a model source; one that is not well formed has no definitions at all. -/
def ModelSource.parse? (text : String) : Option ModelSource :=
  match (Source.fileTokens? text).bind (Source.Rule.parse? .file) with
  | some [.node _ children] =>
    some ⟨children.countP Source.isItem, Source.definitionsInAll children⟩
  | _ => none

/-- The models of several sources: of equal names the first definition counts. -/
def Models.ofSources (sources : List ModelSource) : Models :=
  .ofDefinitions (sources.flatMap (·.definitions))

end Apidoc
