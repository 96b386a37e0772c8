import Apidoc.TypeRef
import Apidoc.Source.Grammar

namespace Apidoc

/-- Why a text is no type reference. -/
inductive TypeFault where
  | malformed
  | unsupported
  deriving DecidableEq

namespace Source

open Rule

mutual

/-- The reference that a tree of the type grammar reduces to. -/
def typeOf? : Tree Rule → Option TypeRef
  | .node (.type _) [t] => typeOf? t
  | .node (.parenType _) [_, _] => some .void
  | .node (.parenType _) [_, t, .leaf (.closing .paren)] => typeOf? t
  | .node (.pathType _) [t] => typeOf? t
  | .node (.qualifiedPath _) ts => lastType? ts
  | .node (.path _) ts => lastType? ts
  | .node (.segment _) [.leaf (.ident name)] => some ⟨name, []⟩
  | .node (.segment _) [.leaf (.ident name), .node .arguments ts] =>
    (argumentTypes? ts).map fun args => ⟨name, args⟩
  | .node .bracketType (_ :: t :: _) => (typeOf? t).map fun element => ⟨"Vec", [element]⟩
  | .node .referenceType ts => lastType? ts
  | _ => none

def lastType? : List (Tree Rule) → Option TypeRef
  | [] => none
  | [t] => typeOf? t
  | _ :: t :: ts => lastType? (t :: ts)

def argumentTypes? : List (Tree Rule) → Option (List TypeRef)
  | [] => some []
  | .node .typeArgument [t] :: ts =>
    match typeOf? t, argumentTypes? ts with
    | some a, some as => some (a :: as)
    | _, _ => none
  | _ :: ts => argumentTypes? ts

end

end Source

/-- The type reference that a text denotes. -/
def TypeRef.parse (text : String) : Except TypeFault TypeRef :=
  match (Source.tokens? (Text.trimChars text.toList)).bind (Source.Rule.parse? (.type true)) with
  | some [tree] =>
    match Source.typeOf? tree with
    | some t => .ok t
    | none => .error .unsupported
  | _ => .error .malformed

end Apidoc
