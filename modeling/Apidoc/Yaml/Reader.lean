import Apidoc.Scalar
import Apidoc.Table
import Apidoc.Yaml.Token
import Apidoc.Yaml.Tree

namespace Apidoc.Yaml

/-- The tokens that are left, and the slots of the known anchors. -/
structure Reader where
  tokens : List Token
  anchors : Table Nat := {}

/-- The texts that tag handles stand for. -/
abbrev Handles := List (String × String)

def defaultHandles : Handles := [("!", "!"), ("!!", Scalar.tag "")]

def tagOf? (handles : Handles) (handle suffix : String) : Option String :=
  if handle = "" then some suffix
  else (handles.find? (·.1 == handle)).map (·.2 ++ suffix)

/-- What may stand before a node. -/
structure Properties where
  anchor : Option String := none
  tag : Option String := none

namespace Reader

def properties? (handles : Handles) (r : Reader) : Option (Properties × Reader) :=
  match r.tokens with
  | .anchor name :: .tag handle suffix :: rest => do
    return (⟨some name, some (← tagOf? handles handle suffix)⟩, { r with tokens := rest })
  | .tag handle suffix :: .anchor name :: rest => do
    return (⟨some name, some (← tagOf? handles handle suffix)⟩, { r with tokens := rest })
  | .anchor name :: rest => some (⟨some name, none⟩, { r with tokens := rest })
  | .tag handle suffix :: rest => do
    return (⟨none, some (← tagOf? handles handle suffix)⟩, { r with tokens := rest })
  | _ => some ({}, r)

/-- Gives a slot to a node if an anchor names it. -/
def bind (r : Reader) (anchor : Option String) : Option Nat × Reader :=
  match anchor with
  | none => (none, r)
  | some name => (some r.anchors.size, { r with anchors := r.anchors.put name r.anchors.size })

def skip (r : Reader) : Reader := { r with tokens := r.tokens.drop 1 }

/-- Whether the next token is one of these. -/
def isAt (r : Reader) (stops : List Token) : Bool := r.tokens.head?.any stops.contains

end Reader

mutual

/-- Reads a node. Blocks may begin only if `inBlock`, and a list that stands directly under its key
only if `underKey`. -/
def node? (handles : Handles) (inBlock underKey : Bool) : Nat → Reader → Option (Tree × Reader)
  | 0, _ => none
  | fuel + 1, r =>
    match r.tokens with
    | .alias name :: rest => do return (.alias (← r.anchors.get? name), { r with tokens := rest })
    | _ => do
      let (p, r) ← r.properties? handles
      let (slot, bound) := r.bind p.anchor
      let inner := bound.skip
      match r.tokens.head? with
      | some .item =>
        if !underKey then
          if p.anchor.isNone && p.tag.isNone then none
          else return (.scalar slot "" .plain p.tag, bound)
        let (items, r) ← bareItems? handles fuel bound
        return (.sequence slot p.tag items, r)
      | some (.scalar text style) =>
        return (.scalar slot text style (p.tag.filter (· ≠ "!")), inner)
      | some .openBracket =>
        let (items, r) ← flowItems? handles true fuel inner
        return (.sequence slot p.tag items, r)
      | some .openBrace =>
        let (entries, r) ← flowEntries? handles true fuel inner
        return (.mapping slot p.tag entries, r)
      | next =>
        match inBlock, next with
        | true, some .blockSequence =>
          let (items, r) ← blockItems? handles fuel inner
          return (.sequence slot p.tag items, r)
        | true, some .blockMapping =>
          let (entries, r) ← blockEntries? handles fuel inner
          return (.mapping slot p.tag entries, r)
        | _, _ =>
          if p.anchor.isNone && p.tag.isNone then none
          else return (.scalar slot "" .plain p.tag, bound)

/-- A node, or nothing before a token that ends the entry. -/
def nodeOrEmpty? (handles : Handles) (inBlock underKey : Bool) (stops : List Token) :
    Nat → Reader → Option (Tree × Reader)
  | 0, _ => none
  | fuel + 1, r =>
    if r.isAt stops then some (.empty, r) else node? handles inBlock underKey fuel r

def blockItems? (handles : Handles) : Nat → Reader → Option (List Tree × Reader)
  | 0, _ => none
  | fuel + 1, r =>
    match r.tokens with
    | .item :: _ => do
      let (t, r) ← nodeOrEmpty? handles true false [.item, .blockEnd] fuel r.skip
      let (items, r) ← blockItems? handles fuel r
      return (t :: items, r)
    | .blockEnd :: _ => some ([], r.skip)
    | _ => none

/-- The items of a list that stands directly under its key. -/
def bareItems? (handles : Handles) : Nat → Reader → Option (List Tree × Reader)
  | 0, _ => none
  | fuel + 1, r =>
    match r.tokens with
    | .item :: _ => do
      let (t, r) ← nodeOrEmpty? handles true false [.item, .key, .value, .blockEnd] fuel r.skip
      let (items, r) ← bareItems? handles fuel r
      return (t :: items, r)
    | _ => some ([], r)

def blockEntries? (handles : Handles) : Nat → Reader → Option (List (Tree × Tree) × Reader)
  | 0, _ => none
  | fuel + 1, r =>
    match r.tokens with
    | .key :: _ => do
      let stops := [Token.key, .value, .blockEnd]
      let (k, r) ← nodeOrEmpty? handles true true stops fuel r.skip
      let (v, r) ←
        if r.isAt [.value] then nodeOrEmpty? handles true true stops fuel r.skip
        else some (.empty, r)
      let (entries, r) ← blockEntries? handles fuel r
      return ((k, v) :: entries, r)
    | .blockEnd :: _ => some ([], r.skip)
    | _ => none

/-- The items up to the closing bracket. An item may be a single entry. -/
def flowItems? (handles : Handles) (isFirst : Bool) : Nat → Reader → Option (List Tree × Reader)
  | 0, _ => none
  | fuel + 1, r =>
    if r.isAt [.closeBracket] then some ([], r.skip)
    else if !isFirst && !r.isAt [.comma] then none
    else
      let r := if isFirst then r else r.skip
      match r.tokens with
      | .closeBracket :: _ => some ([], r.skip)
      | .key :: _ => do
        let (k, r) ← node? handles false false fuel r.skip
        let (v, r) ←
          if r.isAt [.value] then
            nodeOrEmpty? handles false false [.comma, .closeBracket] fuel r.skip
          else some (.empty, r)
        let (items, r) ← flowItems? handles false fuel r
        return (.mapping none none [(k, v)] :: items, r)
      | _ => do
        let (t, r) ← node? handles false false fuel r
        let (items, r) ← flowItems? handles false fuel r
        return (t :: items, r)

/-- The entries up to the closing brace. -/
def flowEntries? (handles : Handles) (isFirst : Bool) :
    Nat → Reader → Option (List (Tree × Tree) × Reader)
  | 0, _ => none
  | fuel + 1, r =>
    if r.isAt [.closeBrace] then some ([], r.skip)
    else if !isFirst && !r.isAt [.comma] then none
    else
      let r := if isFirst then r else r.skip
      match r.tokens with
      | .closeBrace :: _ => some ([], r.skip)
      | .key :: _ => do
        let (k, r) ← nodeOrEmpty? handles false false [.value, .comma, .closeBrace] fuel r.skip
        let (v, r) ←
          if r.isAt [.value] then
            nodeOrEmpty? handles false false [.comma, .closeBrace] fuel r.skip
          else some (.empty, r)
        let (entries, r) ← flowEntries? handles false fuel r
        return ((k, v) :: entries, r)
      | _ => do
        let (k, r) ← node? handles false false fuel r
        let (entries, r) ← flowEntries? handles false fuel r
        return ((k, .empty) :: entries, r)

end

/-- The directives before a document: at most one version, and every handle once. -/
def directives? (hasVersion : Bool) (handles : Handles) : List Token → Option (Handles × List Token)
  | .directive (.version major minor) :: rest =>
    if hasVersion || major ≠ 1 || (minor ≠ 1 && minor ≠ 2) then none
    else directives? true handles rest
  | .directive (.tag handle start) :: rest =>
    if handles.any (·.1 == handle) then none
    else directives? hasVersion ((handle, start) :: handles) rest
  | rest => some (handles, rest)

/-- What stands after the mark that begins a document. -/
def content? (handles : Handles) (fuel : Nat) (tokens : List Token) : Option (Tree × Reader) :=
  if tokens.isEmpty then some (.empty, ⟨[], {}⟩)
  else nodeOrEmpty? handles true false [.documentEnd] fuel ⟨tokens, {}⟩

/-- The only document among the tokens. After directives it must begin with a mark. -/
def document? (tokens : List Token) : Option Tree := do
  let fuel := 4 * tokens.length + 4
  let (handles, rest) ← directives? false [] tokens
  let handles := handles ++ defaultHandles
  let (t, r) ←
    match rest with
    | .documentStart :: rest => content? handles fuel rest
    | rest =>
      if rest.length < tokens.length then none
      else if rest.isEmpty then some (.empty, ⟨[], {}⟩)
      else node? handles true false fuel ⟨rest, {}⟩
  if r.tokens.all (· == .documentEnd) then some t else none

/-- The node that a text denotes. -/
def read (text : String) : Option Node := do
  return (← document? (← tokens? text)).toNode

end Apidoc.Yaml
