import Apidoc.Disk

namespace Apidoc

/-- What a scan finds, as places below the folder that is scanned. -/
structure Scan where
  sources : List (List String)
  descriptors : List (List String)

namespace Scan

/-- The configuration that a project has in its folder. -/
def configName : String := "swagger-from-resources.yaml"

/-- Names that are passed over, with all that they contain. -/
def isIgnored (name : String) : Bool :=
  Text.startsWith "." name || name == "target"

def extension? (place : List String) : Option String :=
  place.getLast?.bind FilePath.extension?

def isSource (place : List String) : Bool :=
  extension? place == some "rs"

def isDescriptor (place : List String) : Bool :=
  (extension? place).any ["yaml", "yml", "json"].contains && place.getLast? != some configName

end Scan

namespace Entry

mutual

/-- The places of the files in an entry, in order, without what is ignored. -/
def files : Entry → List (List String)
  | .file _ => [[]]
  | .folder entries =>
    ((filesOf entries).mergeSort fun a b => !(b.1 < a.1)).flatMap fun (name, places) =>
      places.map (name :: ·)

/-- The files of each child. -/
def filesOf : List (String × Entry) → List (String × List (List String))
  | [] => []
  | (name, e) :: rest =>
    if Scan.isIgnored name then filesOf rest else (name, e.files) :: filesOf rest

end

/-- Scans a folder. Excluded descriptors are not reported. -/
def scan (folder : Entry) (isExcluded : List String → Bool) : Scan where
  sources := folder.files.filter Scan.isSource
  descriptors := folder.files.filter fun place => Scan.isDescriptor place && !isExcluded place

end Entry

/-- Scans the folder at a path. A path that is to be excluded and leads nowhere counts as it is
written. -/
def Scan.run? (disk : Disk) (path : String) (excluded : List String) : Option Scan := do
  let place ← disk.resolve? path
  let folder ← disk.at? place
  let excluded := excluded.filterMap disk.canonical?
  if folder.isFolder then some (folder.scan fun p => excluded.contains (place ++ p)) else none

end Apidoc
