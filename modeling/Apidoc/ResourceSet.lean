import Apidoc.Resource

namespace Apidoc

/-- The resources, beans and tag definitions of one reading. -/
structure ResourceSet where
  roots : List String := []
  resources : List Resource := []
  beans : List Bean := []
  tags : List TagDefinition := []

namespace ResourceSet

/-- Replaces the item of the same name, or adds it at the end. -/
def replaceBy {α : Type} (name : α → String) (x : α) : List α → List α
  | [] => [x]
  | y :: ys => if name y = name x then x :: ys else y :: replaceBy name x ys

def addSubResource (s : ResourceSet) (r : Resource) : ResourceSet :=
  { s with resources := replaceBy Resource.name r s.resources }

/-- Adds a resource at which reading starts. -/
def addRoot (s : ResourceSet) (r : Resource) : ResourceSet :=
  { s.addSubResource r with
    roots := if r.name ∈ s.roots then s.roots else s.roots ++ [r.name] }

def addBean (s : ResourceSet) (b : Bean) : ResourceSet :=
  { s with beans := replaceBy Bean.name b s.beans }

def addTag (s : ResourceSet) (t : TagDefinition) : ResourceSet :=
  { s with tags := s.tags ++ [t] }

/-- Adds everything that a bundle declares. -/
def addBundle (s : ResourceSet) (b : Bundle) : ResourceSet :=
  let s := b.resources.foldl addRoot s
  let s := b.subResources.foldl addSubResource s
  let s := b.beans.foldl addBean s
  b.tags.foldl addTag s

def resource? (s : ResourceSet) (name : String) : Option Resource :=
  s.resources.find? (·.name == name)

/-- The resource that a type names, if it is marked as one. -/
def routable? (s : ResourceSet) (t : TypeRef) : Option Resource :=
  (s.resource? t.unwrapped.name).filter (·.api.isSome)

def bean? (s : ResourceSet) (t : TypeRef) : Option Bean :=
  s.beans.find? (·.name == t.unwrapped.name)

/-- The resources at which reading starts, in the order of their first registration. -/
def rootResources (s : ResourceSet) : List Resource :=
  s.roots.filterMap s.resource?

end ResourceSet

end Apidoc
