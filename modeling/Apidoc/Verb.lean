import Apidoc.Text.Blank

namespace Apidoc

inductive Verb where
  | get
  | put
  | post
  | delete
  | options
  | head
  | patch
  deriving DecidableEq

namespace Verb

def name : Verb → String
  | get => "get"
  | put => "put"
  | post => "post"
  | delete => "delete"
  | options => "options"
  | head => "head"
  | patch => "patch"

/-- Every verb, in the order in which a path item lists its operations. -/
def every : List Verb := [get, put, post, delete, options, head, patch]

/-- The verb of exactly this name. -/
def ofName? (name : String) : Option Verb :=
  every.find? (·.name == name)

/-- The verb that a text declares; the case of letters and the blanks around are ignored. -/
def parse? (text : String) : Option Verb :=
  ofName? (Text.lowerAscii (Text.trim text))

theorem mem_every (v : Verb) : v ∈ every := by cases v <;> simp [every]

theorem ofName?_name (v : Verb) : ofName? v.name = some v := by cases v <;> decide

end Verb

end Apidoc
