import Apidoc.Source.Peg

/-!
Only types, attributes, structs and enums are looked at later, so the rest of the grammar is
described as far as it decides what is well formed and where definitions can be nested.
-/

namespace Apidoc.Source

/-- The rules of the grammar. `wide` says whether a type may be a sum of bounds, `free` whether a
braced literal may follow a path. -/
inductive Rule where
  -- attributes
  | file | attr | innerAttr | metaItem | metaPath | tokenTree
  -- items
  | item | visibility | structItem | enumItem | unionItem | field | tupleField | variant
  | functionItem | parameter | implItem | traitItem | memberItem | moduleItem | useItem | useTree
  | constItem | staticItem | typeItem | crateItem | externItem | foreignItem
  | macroDefinition | macroItem
  | generics | genericParameter | whereClause | wherePredicate
  -- types
  | type (wide : Bool) | parenType (wide : Bool) | pathType (wide : Bool) | bracketType
  | referenceType | otherType (wide : Bool)
  | path (inExpr : Bool) | qualifiedPath (inExpr : Bool) | segment (inExpr : Bool) | arguments
  | typeArgument | otherArgument | bound | traitBound | lifetimes | callArguments | returnType
  -- patterns
  | pattern | simplePattern | patternField
  -- expressions
  | expr (free : Bool) | halfRange (free : Bool) | comparison (free : Bool) | sum (free : Bool)
  | unary (free : Bool)
  | suffixed (free : Bool) | primary (free : Bool) | literalField | closureParameter | matchArm
  | condition | block | statement | ifExpr
  deriving DecidableEq

namespace Rule

open Peg

/-- The words that are no identifiers. -/
def keywords : List String :=
  ["_", "abstract", "as", "async", "await", "become", "box", "break", "const", "continue", "crate",
    "do", "dyn", "else", "enum", "extern", "false", "final", "fn", "for", "if", "impl", "in", "let",
    "loop", "macro", "match", "mod", "move", "mut", "override", "priv", "pub", "ref", "return",
    "Self", "self", "static", "struct", "super", "trait", "true", "try", "type", "typeof", "unsafe",
    "unsized", "use", "virtual", "where", "while", "yield"]

def isIdentifier (name : String) : Bool := !keywords.contains name

def identifier : Peg Rule :=
  .token fun t => match t with
    | .ident name => isIdentifier name
    | _ => false

def lifetime : Peg Rule := all [char '\'' true, anyWord]

def stringLiteral : Peg Rule :=
  .token fun t => match t with
    | .literal (.string _) => true
    | _ => false

def numberLiteral : Peg Rule :=
  .token fun t => match t with
    | .literal .int => true
    | .literal .float => true
    | _ => false

def literal : Peg Rule :=
  first [
    .token fun t => match t with
      | .literal _ => true
      | _ => false,
    word "true", word "false", all [char '-' false, numberLiteral]]

def comma : Peg Rule := char ',' false

def semicolon : Peg Rule := char ';' false

/-- A colon that begins no path separator. -/
def colon : Peg Rule := all [.unless (op "::"), char ':' false]

/-- An equals sign that is not doubled. -/
def equals : Peg Rule := all [.unless (op "=="), char '=' false]

def attributes : Peg Rule := .many (.rule .attr)

def innerAttributes : Peg Rule := .many (.rule .innerAttr)

def anyType : Peg Rule := .rule (.type true)

def anyExpr : Peg Rule := .rule (.expr true)

/-- The name of an argument in a function type. -/
def argumentName : Peg Rule := all [first [identifier, word "_", word "self"], colon]

/-- A group of token trees. -/
def group : Peg Rule :=
  first [
    within .paren (.many (.rule .tokenTree)),
    within .bracket (.many (.rule .tokenTree)),
    within .brace (.many (.rule .tokenTree))]

def abi : Peg Rule := all [word "extern", opt stringLiteral]

/-- The words that may stand before `fn`. -/
def functionWords : Peg Rule :=
  all [opt (word "const"), opt (word "async"), opt (first [word "unsafe", word "safe"]), opt abi]

/-- The words that begin a path although they are no identifiers. -/
def pathWord : Peg Rule := first [word "super", word "self", word "crate", word "try"]

/-- A path without arguments. -/
def modulePath : Peg Rule :=
  all [opt (op "::"), chain (first [identifier, pathWord, word "Self"]) (op "::")]

/-- Where a path or a binder of lifetimes begins. -/
def pathAhead : Peg Rule :=
  ahead (first [identifier, pathWord, word "Self", op "::", word "for"])

/-- Where generic arguments begin. -/
def argumentsAhead (inExpr : Bool) : Peg Rule :=
  if inExpr then ahead (all [op "::", char '<' false])
  else first [
    all [ahead (char '<' false), .unless (op "<=")],
    ahead (all [op "::", char '<' false])]

/-- Where a name begins that can be bound or constrained among arguments. -/
def nameAhead : Peg Rule :=
  ahead (all [first [identifier, pathWord, word "Self"],
    .unless (all [op "::", .unless (char '<' false)])])

def fields : Peg Rule := within .brace (listOf (.rule .field) comma)

def tupleFields : Peg Rule := within .paren (listOf (.rule .tupleField) comma)

def literalArgument : Peg Rule := first [literal, .rule .block]

def plus : Peg Rule := char '+' false

/-- Bounds of a parameter, perhaps none. -/
def optionalBounds : Peg Rule :=
  opt (all [.rule .bound, .many (all [plus, .rule .bound]),
    opt (all [plus, .unless (.rule .bound)])])

/-- Where a bound begins after a plus sign. -/
def boundAhead : Peg Rule :=
  ahead (first [anyWord, op "::", char '?' false, lifetime, openDelim .paren])

/-- Further bounds of a type, perhaps with a plus sign after the last. -/
def moreBounds (bound : Peg Rule) : Peg Rule :=
  .seq (.many (all [plus, bound])) (opt (all [plus, .unless boundAhead]))

/-- A trait, perhaps in parentheses. -/
def trait : Peg Rule := first [within .paren (.rule .traitBound), .rule .traitBound]

/-- The lifetimes and constraints of captures. -/
def captures : Peg Rule :=
  all [word "use", char '<' false, listOf (first [lifetime, identifier, word "Self"]) comma,
    char '>' false]

/-- The bounds of a trait type, among them at least one trait; `lead` may stand before it. -/
def traitBounds (lead : Peg Rule) (wide : Bool) : Peg Rule :=
  if wide then all [.many (all [lead, plus]), trait, moreBounds (first [lead, trait])] else trait

/-- The bounds of a trait object. -/
def objectBounds (wide : Bool) : Peg Rule := traitBounds lifetime wide

/-- The bounds of an opaque type; captures may stand among them. -/
def implBounds (wide : Bool) : Peg Rule := traitBounds (first [lifetime, captures]) wide

def functionTail : Peg Rule :=
  all [opt (.rule .generics), within .paren (listOf (.rule .parameter) comma),
    opt (.rule .returnType), opt (.rule .whereClause)]

/-- The end of a range of patterns. -/
def rangeBound : Peg Rule :=
  first [literal, .rule (.qualifiedPath true), all [word "const", .rule .block]]

/-- What makes a pattern a range; one that includes its end has an end. -/
def rangeEnd : Peg Rule :=
  first [all [first [op "..=", op "..."], rangeBound], all [op "..", opt rangeBound]]

/-- The operators that join two comparisons. -/
def joiner : Peg Rule :=
  first [op "&&", op "||", op "+=", op "-=", op "*=", op "/=", op "%=",
    op "^=", op "&=", op "|=", op "<<=", op ">>=",
    all [.unless (op "=="), .unless (op "=>"), char '=' false]]

def comparator : Peg Rule :=
  first [op "==", op "!=", op "<=", op ">=",
    all [.unless (op "<<"), char '<' false], all [.unless (op ">>"), char '>' false]]

def adder : Peg Rule :=
  first [
    all [.unless (op "<<="), op "<<"], all [.unless (op ">>="), op ">>"],
    all [.unless (op "+="), char '+' false],
    all [.unless (op "-="), .unless (op "->"), char '-' false],
    all [.unless (op "*="), char '*' false], all [.unless (op "/="), char '/' false],
    all [.unless (op "%="), char '%' false], all [.unless (op "^="), char '^' false],
    all [.unless (op "&="), .unless (op "&&"), char '&' false],
    all [.unless (op "|="), .unless (op "||"), char '|' false]]

/-- Where an expression can begin. -/
def exprAhead : Peg Rule :=
  ahead (first [
    all [.unless (first [word "as", word "else", word "in", word "where", word "let"]), anyWord],
    .token fun t => match t with
      | .literal _ => true
      | .opening _ => true
      | _ => false,
    all [.unless (first [op "=>", op "->"]),
      first [char '-' false, char '!' false, char '*' false, char '&' false, char '|' false,
        char '<' false, op "::", char '\'' true, op "..", char '#' false]]])

def blockLike : Peg Rule :=
  first [
    .rule .ifExpr,
    all [opt (all [lifetime, colon]), first [
      all [word "while", .rule .condition, .rule .block],
      all [word "for", .rule .pattern, word "in", .rule (.expr false), .rule .block],
      all [word "loop", .rule .block],
      .rule .block]],
    all [word "match", .rule (.expr false),
      within .brace (.seq innerAttributes (.many (.rule .matchArm)))],
    all [word "unsafe", .rule .block],
    all [word "const", .rule .block],
    all [word "async", opt (word "move"), .rule .block],
    all [word "try", .rule .block]]

/-- Where an item begins among statements. -/
def itemAhead : Peg Rule :=
  ahead (all [attributes, opt (.rule .visibility), first [
    word "fn", word "struct", word "enum", word "use", word "mod", word "trait", word "impl",
    all [word "type", anyWord],
    all [word "union", identifier], all [word "auto", word "trait"],
    all [word "default", word "impl"],
    all [word "macro", identifier], all [word "macro_rules", char '!' false, identifier],
    all [word "extern", first [word "crate", word "fn", stringLiteral, openDelim .brace]],
    all [word "unsafe", first [word "fn", word "trait", word "impl", word "extern", word "mod",
      word "auto"]],
    all [word "async", first [word "fn", word "unsafe", word "extern"]],
    all [word "static", .unless (first [word "move", char '|' false])],
    all [word "const", .unless (first [openDelim .brace, char '|' false, word "move",
      all [word "async", first [char '|' false, word "move"]]])]]])

/-- The expression of each rule. -/
def body : Rule → Peg Rule
  | .file => all [innerAttributes, .many (.rule .item)]
  | .attr => all [char '#' false, within .bracket (.rule .metaItem)]
  | .innerAttr => all [char '#' false, char '!' false, within .bracket (.rule .metaItem)]
  | .metaPath => all [opt (op "::"), chain anyWord (op "::")]
  | .metaItem => first [
      all [word "unsafe", within .paren (.rule .metaItem)],
      all [.rule .metaPath, first [group,
        all [equals, .unless (all [char '#' false, openDelim .bracket]), anyExpr], .done]]]
  | .tokenTree => first [group, anyToken]
  -- items
  | .item => all [attributes, first [
      all [opt (.rule .visibility), first [
        .rule .structItem, .rule .enumItem, .rule .useItem, .rule .moduleItem, .rule .typeItem,
        .rule .functionItem, .rule .implItem, .rule .traitItem, .rule .constItem, .rule .staticItem,
        .rule .crateItem, .rule .unionItem, .rule .macroDefinition]],
      .rule .externItem, .rule .macroItem]]
  | .visibility => all [word "pub", opt (first [
      within .paren (first [word "crate", word "self", word "super"]),
      within .paren (all [word "in", opt (op "::"),
        chain (first [identifier, pathWord]) (op "::")])])]
  | .structItem => all [word "struct", identifier, opt (.rule .generics), first [
      all [opt (.rule .whereClause), first [fields, semicolon]],
      all [tupleFields, opt (.rule .whereClause), semicolon]]]
  | .enumItem => all [word "enum", identifier, opt (.rule .generics), opt (.rule .whereClause),
      within .brace (listOf (.rule .variant) comma)]
  | .unionItem => all [word "union", identifier, opt (.rule .generics), opt (.rule .whereClause),
      fields]
  | .field => all [attributes, opt (.rule .visibility), first [identifier, word "_"], colon,
      anyType]
  | .tupleField => all [attributes, opt (.rule .visibility), anyType]
  | .variant => all [attributes, opt (.rule .visibility), identifier,
      opt (first [fields, tupleFields]), opt (all [equals, anyExpr])]
  | .functionItem => all [opt (word "default"), functionWords, word "fn", identifier, functionTail,
      first [.rule .block, semicolon]]
  | .parameter => all [attributes, first [
      op "...",
      all [opt (all [char '&' false, opt lifetime]), opt (word "mut"), word "self",
        .unless (op "::"), opt (all [colon, anyType])],
      all [.rule .pattern, colon, first [op "...", anyType]]]]
  | .implItem => all [opt (word "default"), opt (word "unsafe"), word "impl",
      opt (all [.unless (all [char '<' false, first [char '#' false,
          all [anyWord, op "::"], all [lifetime, char '+' false]]]), .rule .generics]),
      opt (word "const"), opt (char '!' false), anyType, opt (all [word "for", anyType]),
      opt (.rule .whereClause),
      within .brace (all [innerAttributes, .many (.rule .memberItem)])]
  | .traitItem => all [opt (word "unsafe"), opt (word "auto"), word "trait", identifier,
      opt (.rule .generics), first [
        all [opt (all [colon, optionalBounds]), opt (.rule .whereClause),
          within .brace (all [innerAttributes, .many (.rule .memberItem)])],
        all [equals, optionalBounds, opt (.rule .whereClause), semicolon]]]
  | .memberItem => all [attributes, first [
      all [opt (.rule .visibility), first [
        .rule .functionItem, .rule .constItem, .rule .typeItem]],
      .rule .macroItem]]
  | .moduleItem => all [opt (word "unsafe"), word "mod", first [identifier, word "try"], first [
      semicolon,
      within .brace (all [innerAttributes, .many (.rule .item)])]]
  | .useItem => all [word "use", opt (op "::"), .rule .useTree, semicolon]
  | .useTree => first [
      char '*' false,
      within .brace (listOf (all [opt (op "::"), .rule .useTree]) comma),
      all [first [identifier, pathWord, word "Self"], first [
        all [op "::", .rule .useTree],
        all [word "as", first [identifier, word "_"]],
        .done]]]
  | .constItem => all [opt (word "default"), word "const", first [identifier, word "_"],
      opt (.rule .generics), colon, anyType, opt (all [equals, anyExpr]), opt (.rule .whereClause),
      semicolon]
  | .staticItem => all [word "static", opt (word "mut"), identifier, opt (all [colon, anyType]),
      opt (all [equals, anyExpr]), semicolon]
  | .typeItem => all [opt (word "default"), word "type", identifier, opt (.rule .generics),
      opt (all [colon, optionalBounds]), opt (.rule .whereClause), opt (all [equals, anyType]),
      opt (.rule .whereClause), semicolon]
  | .crateItem => all [word "extern", word "crate", first [identifier, word "self"],
      opt (all [word "as", first [identifier, word "_"]]), semicolon]
  | .externItem => all [opt (word "unsafe"), abi,
      within .brace (all [innerAttributes, .many (.rule .foreignItem)])]
  | .foreignItem => all [attributes, first [
      all [opt (.rule .visibility), first [
        .rule .functionItem, all [opt (first [word "unsafe", word "safe"]), .rule .staticItem],
        .rule .typeItem]],
      .rule .macroItem]]
  | .macroDefinition => all [word "macro", identifier, first [
      within .brace (.many (.rule .tokenTree)),
      all [within .paren (.many (.rule .tokenTree)), within .brace (.many (.rule .tokenTree))]]]
  | .macroItem => all [modulePath, .unless (op "!="), char '!' false,
      opt (first [identifier, word "try"]), first [
        within .brace (.many (.rule .tokenTree)),
        all [group, semicolon]]]
  -- generics
  | .generics => all [char '<' false, listOf (.rule .genericParameter) comma, char '>' false]
  | .genericParameter => all [attributes, first [
      all [lifetime, opt (all [colon, opt (chain lifetime plus), opt plus])],
      all [word "const", identifier, colon, anyType,
        opt (all [equals, first [literal, identifier, .rule .block]])],
      all [identifier, opt (all [colon, optionalBounds]), opt (all [equals, anyType])]]]
  | .whereClause => all [word "where", listOf (.rule .wherePredicate) comma]
  | .wherePredicate => first [
      all [lifetime, colon, opt (chain lifetime plus), opt plus],
      all [opt (.rule .lifetimes), anyType, colon, optionalBounds]]
  -- types
  | .type wide => first [
      .rule (.parenType wide), .rule (.pathType wide), .rule .bracketType, .rule .referenceType,
      .rule (.otherType wide)]
  | .parenType wide => all [openDelim .paren, first [
      closeDelim .paren,
      all [ahead (char '?' false), .rule .traitBound, closeDelim .paren,
        .many (all [plus, .rule .bound])],
      all [ahead lifetime, objectBounds true, closeDelim .paren],
      all [if wide then pathAhead else fail, anyType, first [
        all [comma, listOf anyType comma, closeDelim .paren],
        all [closeDelim .paren, .many (all [plus, .rule .bound])]]],
      all [if wide then .unless pathAhead else .done, anyType,
        opt (all [comma, listOf anyType comma]), closeDelim .paren]]]
  | .pathType wide => all [.unless (word "try"), first [
      all [ahead (char '<' false), .rule (.qualifiedPath false)],
      all [modulePath, .unless (op "!="), char '!' false, group],
      all [.rule (.path false),
        if wide then moreBounds (.rule .bound) else .done]]]
  | .bracketType => within .bracket (all [anyType, opt (all [semicolon, anyExpr])])
  | .referenceType => all [char '&' false, opt lifetime, opt (word "mut"), .rule (.type false)]
  | .otherType wide => first [
      all [char '*' false, first [word "const", word "mut"], .rule (.type false)],
      all [.unless (op "!="), char '!' false],
      word "_",
      all [word "dyn", opt (char '*' false), objectBounds wide],
      all [word "impl", implBounds wide],
      all [opt (.rule .lifetimes), opt (word "unsafe"), opt abi, word "fn",
        within .paren (all [
          .many (all [attributes, opt (all [opt (word "mut"), argumentName]), anyType,
            first [comma, ahead (closeDelim .paren)]]),
          opt (all [attributes, opt argumentName, op "...", opt comma])]),
        opt (all [op "->", .rule (.type false)])],
      all [.rule .lifetimes, .unless (first [word "try", op "::"]), first [
        all [modulePath, .unless (op "!="), char '!' false, group],
        all [.rule (.path false), if wide then moreBounds (.rule .bound) else .done]]],
      all [ahead lifetime, objectBounds true]]
  | .path inExpr => all [opt (op "::"), .rule (.segment inExpr),
      .many (all [op "::", .unless (openDelim .paren), .rule (.segment inExpr)])]
  | .qualifiedPath inExpr => first [
      all [char '<' false, anyType, opt (all [word "as", .rule (.path false)]), char '>' false,
        op "::", chain (.rule (.segment inExpr)) (op "::")],
      all [.unless (word "try"), .rule (.path inExpr)]]
  | .segment inExpr => first [
      pathWord,
      all [first [identifier, word "Self"],
        opt (all [argumentsAhead inExpr, .rule .arguments])]]
  | .arguments => all [opt (op "::"), char '<' false,
      listOf (first [.rule .otherArgument, .rule .typeArgument]) comma, char '>' false]
  | .otherArgument => first [
      all [lifetime, .unless (char '+' false)],
      literal, .rule .block]
  | .typeArgument => first [
      all [nameAhead, anyType, opt (first [
        all [equals, first [literalArgument, anyType]],
        all [colon, optionalBounds]])],
      all [.unless nameAhead, anyType]]
  | .bound => first [lifetime, trait]
  | .traitBound => all [opt (char '?' false), opt (all [char '~' false, word "const"]),
      opt (.rule .lifetimes), .rule (.path false), opt (all [opt (op "::"), .rule .callArguments])]
  | .lifetimes => all [word "for", char '<' false, listOf (all [attributes, lifetime]) comma,
      char '>' false]
  | .callArguments => all [within .paren (listOf anyType comma),
      opt (all [op "->", .rule (.type false)])]
  | .returnType => all [op "->", anyType]
  -- patterns
  | .pattern => all [opt (char '|' false),
      chain (.rule .simplePattern) (all [.unless (op "||"), .unless (op "|="), char '|' false])]
  | .simplePattern => first [
      all [char '&' false, opt (word "mut"), .rule .simplePattern],
      within .paren (listOf (.rule .pattern) comma),
      within .bracket (listOf (.rule .pattern) comma),
      all [word "box", .rule .simplePattern],
      all [word "const", .rule .block],
      all [word "_"],
      all [opt (word "ref"), opt (word "mut"), identifier,
        .unless (first [op "::", char '!' false, openDelim .paren, openDelim .brace,
          op "..", char '<' false]),
        opt (all [char '@' false, .rule .simplePattern])],
      all [word "ref", opt (word "mut"), first [identifier, word "self"]],
      all [word "mut", first [identifier, word "self"]],
      all [literal, opt rangeEnd],
      first [all [op "..=", rangeBound], all [op "..", opt rangeBound]],
      all [.rule (.qualifiedPath true), first [
        all [.unless (op "!="), char '!' false, group],
        within .paren (listOf (.rule .pattern) comma),
        within .brace (all [
          .many (all [.rule .patternField, first [comma, ahead (closeDelim .brace)]]),
          opt (all [attributes, op ".."])]),
        rangeEnd,
        .done]]]
  | .patternField => all [attributes, first [
      all [first [identifier, numberLiteral], colon, .rule .pattern],
      all [opt (word "box"), opt (word "ref"), opt (word "mut"), identifier]]]
  -- expressions
  | .expr free => all [attributes, first [.rule (.halfRange free), .rule (.comparison free)],
      .many (first [.rule (.halfRange free),
        all [joiner, first [.rule (.halfRange free), .rule (.comparison free)]]])]
  | .halfRange free => first [
      all [op "..=", .rule (.comparison free)],
      all [op "..", opt (all [exprAhead,
        if free then .done else .unless (openDelim .brace), .rule (.comparison free)])]]
  | .comparison free => all [.rule (.sum free), opt (all [comparator, .rule (.sum free)])]
  | .sum free => all [.rule (.unary free), .many (first [
      all [adder, .rule (.unary free)],
      all [word "as", .rule (.type false)]])]
  | .unary free => all [attributes, first [
      all [char '&' false, opt (all [word "raw", first [word "const", word "mut"]]),
        opt (word "mut"), .rule (.unary free)],
      all [first [char '-' false, char '!' false, char '*' false], .rule (.unary free)],
      .rule (.suffixed free)]]
  | .suffixed free => all [.rule (.primary free), .many (first [
      char '?' false,
      all [.unless (op ".."), char '.' false, first [
        word "await",
        all [identifier, first [
          all [ahead (op "::"), .rule .arguments, within .paren (listOf anyExpr comma)],
          opt (within .paren (listOf anyExpr comma))]],
        numberLiteral]],
      within .paren (listOf anyExpr comma),
      within .bracket anyExpr])]
  | .primary free => first [
      literal,
      blockLike,
      within .paren (listOf anyExpr comma),
      within .bracket (opt (all [anyExpr, first [all [semicolon, anyExpr],
        all [.many (all [comma, anyExpr]), opt comma]]])),
      all [opt (.rule .lifetimes), opt (word "const"), opt (word "static"), opt (word "async"),
        opt (word "move"), first [op "||",
          all [char '|' false, listOf (.rule .closureParameter) comma, char '|' false]],
        first [all [.rule .returnType, .rule .block], .rule (.expr free)]],
      all [word "return", opt (all [exprAhead, .rule (.expr free)])],
      all [word "break", opt lifetime, opt (all [exprAhead,
        if free then .done else .unless (openDelim .brace), .rule (.expr free)])],
      all [word "continue", opt lifetime],
      all [word "yield", opt (all [exprAhead, .rule (.expr free)])],
      all [word "let", .rule .pattern, equals, .rule (.comparison false)],
      word "_",
      all [.rule (.qualifiedPath true), first [
        all [.unless (op "!="), char '!' false, group],
        if free then within .brace (all [listOf (.rule .literalField) comma,
          opt (all [op "..", opt anyExpr])]) else fail,
        .done]]]
  | .literalField => all [attributes, first [
      all [first [identifier, numberLiteral], colon, anyExpr],
      identifier]]
  | .closureParameter => all [attributes,
      .rule .simplePattern, opt (all [colon, anyType])]
  | .matchArm => all [attributes, .rule .pattern, opt (all [word "if", anyExpr]), op "=>", first [
      all [blockLike, first [comma, .unless (first [char '.' false, char '?' false])]],
      all [anyExpr, first [comma, ahead (closeDelim .brace)]]]]
  | .condition => .rule (.expr false)
  | .ifExpr => all [word "if", .rule .condition, .rule .block,
      opt (all [word "else", first [.rule .ifExpr, .rule .block]])]
  | .block => within .brace (all [innerAttributes, .many (.rule .statement)])
  | .statement => first [
      semicolon,
      all [itemAhead, .rule .item],
      all [attributes, word "let", .rule .pattern, opt (all [colon, anyType]),
        opt (all [equals, anyExpr, opt (all [word "else", .rule .block])]), semicolon],
      all [attributes, .rule (.qualifiedPath true), .unless (op "!="), char '!' false,
        within .brace (.many (.rule .tokenTree)),
        .unless (first [char '.' false, char '?' false])],
      all [attributes, blockLike, .unless (first [char '.' false, char '?' false]), opt semicolon],
      all [.unless itemAhead, .unless (all [attributes, word "let"]), anyExpr,
        first [semicolon, ahead (closeDelim .brace)]]]

/-- The tree of a rule that consumes all tokens. -/
def parse? (r : Rule) (ts : List Token) : Option (List (Tree Rule)) :=
  Peg.parse? body (.rule r) ts

end Rule

end Apidoc.Source
