import Apidoc.Text.Blank

namespace Apidoc

/-- A file, or a folder of entries by name. The names that lead to an entry are its place. -/
inductive Entry where
  | file (content : String)
  | folder (entries : List (String × Entry))

namespace Entry

def empty : Entry := .folder []

def isFolder : Entry → Bool
  | .folder _ => true
  | .file _ => false

def content? : Entry → Option String
  | .file content => some content
  | .folder _ => none

def child? : Entry → String → Option Entry
  | .folder entries, name => (entries.find? (·.1 == name)).map (·.2)
  | .file _, _ => none

/-- The entry at a place. -/
def at? : Entry → List String → Option Entry
  | e, [] => some e
  | e, name :: place => (e.child? name).bind (·.at? place)

/-- Replaces the child of the same name, or adds it at the end. -/
def setChild (name : String) (child : Entry) : List (String × Entry) → List (String × Entry)
  | [] => [(name, child)]
  | e :: rest => if e.1 = name then (name, child) :: rest else e :: setChild name child rest

/-- Puts an entry at a place, in folders that are made where they are missing. A file on the way
stays what it is. -/
def put : Entry → List String → Entry → Entry
  | _, [], new => new
  | .file content, _ :: _, _ => .file content
  | .folder entries, name :: place, new =>
    let child := ((entries.find? (·.1 == name)).map (·.2)).getD .empty
    .folder (setChild name (child.put place new) entries)

end Entry

namespace FilePath

/-- The parts of a path between its slashes, empty ones included. -/
def parts (path : String) : List String :=
  (Text.splitChars '/' path.toList).map String.ofList

/-- The path of an entry below another one. -/
def below (path : String) (place : List String) : String :=
  place.foldl (fun path name => if endsInSlash path then path ++ name else path ++ "/" ++ name) path
where
  endsInSlash (path : String) : Bool := path.toList.getLast? == some '/'

/-- Parts that lead nowhere. -/
def isIdle (part : String) : Bool := part == "" || part == "."

/-- The parts of the folder that a path lies in. -/
def folderParts (path : String) : List String :=
  dropIdle (dropIdle (parts path)).dropLast
where
  dropIdle (ps : List String) : List String := (ps.reverse.dropWhile isIdle).reverse

def ofParts (ps : List String) : String := "/".intercalate ps

/-- The place that a path spells if it begins at the top: its parts, wherever they lead. -/
def spelled? (path : String) : Option (List String) :=
  if Text.startsWith "/" path then some ((parts path).filter fun part => !isIdle part) else none

/-- The part of a file name after its last dot, unless nothing else comes before it. -/
def extension? (name : String) : Option String :=
  let cs := name.toList.reverse
  let ending := cs.takeWhile (· ≠ '.')
  match cs.drop ending.length with
  | _ :: _ :: _ => some (String.ofList ending.reverse)
  | _ => none

end FilePath

/-- A disk, and the place of the folder in which relative paths begin. -/
structure Disk where
  top : Entry := .empty
  home : List String := []

namespace Disk

def at? (d : Disk) (place : List String) : Option Entry := d.top.at? place

def holdsFolder (d : Disk) (place : List String) : Bool := (d.at? place).any Entry.isFolder

def put (d : Disk) (place : List String) (new : Entry) : Disk :=
  { d with top := d.top.put place new }

/-- The place that a part of a path leads to. -/
def step (d : Disk) (place : List String) (part : String) : Option (List String) :=
  if !d.holdsFolder place then none
  else if FilePath.isIdle part then some place
  else if part = ".." then some place.dropLast
  else if (d.at? (place ++ [part])).isSome then some (place ++ [part]) else none

/-- Where a path begins: at the top if its first part is empty. -/
def start (d : Disk) (parts : List String) : List String :=
  if parts.head? = some "" then [] else d.home

def walk? (d : Disk) (place : List String) (parts : List String) : Option (List String) :=
  parts.foldlM d.step place

/-- The place of an existing entry. -/
def resolve? (d : Disk) (path : String) : Option (List String) :=
  if path = "" then none
  else
    let parts := FilePath.parts path
    d.walk? (d.start parts) parts

/-- The place that stands for a path: where it leads or, if it leads nowhere, what it spells. -/
def canonical? (d : Disk) (path : String) : Option (List String) :=
  (d.resolve? path).or (FilePath.spelled? path)

def find? (d : Disk) (path : String) : Option Entry :=
  (d.resolve? path).bind d.at?

/-- The content of a file. -/
def read? (d : Disk) (path : String) : Option String :=
  (d.find? path).bind Entry.content?

def isFileAt (d : Disk) (path : String) : Bool :=
  (d.read? path).isSome

/-- Follows a part of a path, or makes the folder that it leads to. -/
def makeStep (d : Disk) (place : List String) (part : String) : Option (Disk × List String) :=
  match d.step place part with
  | some next => if d.holdsFolder next then some (d, next) else none
  | none =>
    if d.holdsFolder place && part != ".." then
      some (d.put (place ++ [part]) .empty, place ++ [part])
    else none

/-- Makes the folders on a way that are missing. -/
def makeFolders (d : Disk) (place : List String) : List String → Option Disk
  | [] => some d
  | part :: parts => do
    let (d, next) ← d.makeStep place part
    d.makeFolders next parts

/-- The place that a file is written to: its folder exists, and it is not a folder itself. -/
def target? (d : Disk) (path : String) : Option (List String) := do
  let parts := FilePath.parts path
  let folder ← d.walk? (d.start parts) parts.dropLast
  let name ← parts.getLast?
  let place := folder ++ [name]
  if FilePath.isIdle name || name == ".." || !d.holdsFolder folder || d.holdsFolder place then none
  else some place

/-- Makes a folder, with those that it lies in. -/
def makeFolderAt (d : Disk) (parts : List String) : Option Disk :=
  d.makeFolders (d.start parts) parts

end Disk

end Apidoc
