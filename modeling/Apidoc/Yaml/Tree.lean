import Apidoc.Value

/-!
A node that is named by an anchor has a slot, and an alias refers to a slot: the number of names
that are known when an anchor is met is its slot, and a slot holds the last node that was given it.
-/

namespace Apidoc.Yaml

inductive Tree where
  | alias (slot : Nat)
  | scalar (slot : Option Nat) (text : String) (style : ScalarStyle) (tag : Option String)
  | sequence (slot : Option Nat) (tag : Option String) (items : List Tree)
  | mapping (slot : Option Nat) (tag : Option String) (entries : List (Tree × Tree))

namespace Tree

def empty : Tree := .scalar none "" .plain none

mutual

/-- The nodes that have a slot, in order. -/
def slots : Tree → List (Nat × Tree)
  | .alias _ => []
  | .scalar slot text style tag => own slot (.scalar slot text style tag)
  | .sequence slot tag items => own slot (.sequence slot tag items) ++ slotsOfItems items
  | .mapping slot tag entries => own slot (.mapping slot tag entries) ++ slotsOfEntries entries
where
  own (slot : Option Nat) (t : Tree) : List (Nat × Tree) :=
    match slot with
    | some i => [(i, t)]
    | none => []

def slotsOfItems : List Tree → List (Nat × Tree)
  | [] => []
  | t :: rest => t.slots ++ slotsOfItems rest

def slotsOfEntries : List (Tree × Tree) → List (Nat × Tree)
  | [] => []
  | (k, v) :: rest => k.slots ++ v.slots ++ slotsOfEntries rest

end

/-- A node with an application tag. -/
def withTag (tag : Option String) (n : Node) : Node :=
  if tag.any fun t => t.toList.head? == some '!' then .tagged n else n

/-- What slots stand for at one depth, the last one first. -/
abbrev Slots := List (Nat × Node)

def slotNode (known : Slots) (slot : Nat) : Node :=
  ((known.find? (·.1 == slot)).map (·.2)).getD .invalid

mutual

/-- The node of a tree that is no alias; `levels` holds the slots for each depth that is left. What
is nested too deeply is invalid. -/
def expand : List Slots → Tree → Node
  | _, .alias _ => .invalid
  | _, .scalar _ text style tag => .scalar text style tag
  | [], .sequence _ _ _ => .invalid
  | known :: levels, .sequence _ tag items =>
    withTag tag (.sequence (expandItems known levels items))
  | [], .mapping _ _ _ => .invalid
  | known :: levels, .mapping _ tag entries =>
    withTag tag (.map (expandEntries known levels entries))

def expandItems (known : Slots) (levels : List Slots) : List Tree → List Node
  | [] => []
  | .alias slot :: rest => slotNode known slot :: expandItems known levels rest
  | t :: rest => t.expand levels :: expandItems known levels rest

def expandEntries (known : Slots) (levels : List Slots) : List (Tree × Tree) → List (Node × Node)
  | [] => []
  | (k, v) :: rest =>
    ((match k with
      | .alias slot => slotNode known slot
      | k => k.expand levels),
     (match v with
      | .alias slot => slotNode known slot
      | v => v.expand levels)) :: expandEntries known levels rest

end

/-- How deeply collections may be nested in a node that is used. -/
def maxDepth : Nat := 128

/-- The slots for each depth below `n`, the greatest first. -/
def levels (slots : List (Nat × Tree)) : Nat → List Slots
  | 0 => []
  | n + 1 =>
    let lower := levels slots n
    slots.map (fun (i, t) => (i, t.expand lower)) :: lower

def toNode (t : Tree) : Node :=
  t.expand (levels t.slots.reverse maxDepth)

end Tree

end Apidoc.Yaml
