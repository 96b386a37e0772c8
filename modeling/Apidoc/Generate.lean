import Apidoc.Format
import Apidoc.Reading
import Apidoc.Scan
import Apidoc.Source.Definitions

namespace Apidoc

/-- Why a file cannot be loaded. -/
inductive LoadFault where
  | unreadable
  | malformed
  deriving DecidableEq

/-- The format of a descriptor, by its name. -/
def Format.ofFileName (name : String) : Format :=
  if FilePath.extension? name = some "json" then .json else .yaml

namespace Disk

/-- Loads a file. -/
def load {α : Type} (disk : Disk) (path : String) (parse : String → Option α) :
    Except LoadFault α :=
  match disk.read? path with
  | none => .error .unreadable
  | some text =>
    match parse text with
    | none => .error .malformed
    | some a => .ok a

def loadBundle (disk : Disk) (path : String) : Except LoadFault Bundle :=
  disk.load path (Bundle.load? (Format.ofFileName ((FilePath.parts path).getLast?.getD "")))

def loadConfig (disk : Disk) (path : String) : Except LoadFault Config :=
  disk.load path Config.load?

/-- The configuration at an explicit path, else that of the project, else the default one. -/
def findConfig (disk : Disk) (project : String) (explicit : Option String) :
    Except LoadFault Config :=
  match explicit with
  | some path => disk.loadConfig path
  | none =>
    let path := FilePath.below project [Scan.configName]
    if disk.isFileAt path then disk.loadConfig path else .ok {}

end Disk

/-- What a run is asked for. -/
structure Request where
  project : String
  format : Format := .yaml
  output : Option String := none
  config : Option String := none
  verbose : Bool := false
  deriving DecidableEq

/-- Why a run fails. -/
inductive Failure where
  | noProject (path : String)
  | projectIsFile (path : String)
  | noConfig (path : String)
  | badConfig (fault : LoadFault)
  | noDescriptors
  | badDescriptor (path : String) (fault : LoadFault)
  | reading (e : Error)
  | noFolder (path : String)
  | notWritten (path : String)
  deriving DecidableEq

namespace Failure

def message : Failure → String
  | noProject path => "Project path does not exist: " ++ path
  | projectIsFile path => "Project path is not a directory: " ++ path
  | noConfig path => "Config file does not exist: " ++ path
  | badConfig _ => "Failed to load project config"
  | noDescriptors => "No resource descriptor bundles found in the project directory"
  | badDescriptor path _ => "Failed to load descriptor bundle " ++ path
  | reading _ => "Failed to read resources"
  | noFolder path => "Failed to create directory: " ++ path
  | notWritten path => "Failed to write to file: " ++ path

end Failure

namespace Request

/-- A request whose project is a folder and whose configuration is a file. -/
def validate (r : Request) (disk : Disk) : Except Failure Unit :=
  match disk.find? r.project with
  | none => .error (.noProject r.project)
  | some (.file _) => .error (.projectIsFile r.project)
  | some (.folder _) =>
    match r.config with
    | some path => if disk.isFileAt path then .ok () else .error (.noConfig path)
    | none => .ok ()

/-- The files that are no descriptors: the configuration, and what an earlier run has written. -/
def excluded (r : Request) : List String := r.config.toList ++ r.output.toList

end Request

/-- The models of the sources that a scan found; a source that is not well formed is left out. -/
def Scan.models (scan : Scan) (disk : Disk) (project : String) : Models :=
  .ofSources <| scan.sources.filterMap fun place =>
    (disk.read? (FilePath.below project place)).bind ModelSource.parse?

/-- The resources of the descriptors that a scan found. -/
def Scan.resources (scan : Scan) (disk : Disk) (project : String) : Except Failure ResourceSet :=
  scan.descriptors.foldlM (fun s place =>
    let path := FilePath.below project place
    match disk.loadBundle path with
    | .ok b => .ok (s.addBundle b)
    | .error fault => .error (.badDescriptor path fault)) {}

/-- The document of a project. -/
def generate (disk : Disk) (r : Request) : Except Failure Document :=
  match disk.findConfig r.project r.config with
  | .error fault => .error (.badConfig fault)
  | .ok config =>
    match Scan.run? disk r.project r.excluded with
    | none => .error (.projectIsFile r.project)
    | some scan =>
      if scan.descriptors.isEmpty then .error .noDescriptors
      else do
        let s ← scan.resources disk r.project
        match config.document.read (scan.models disk r.project) s .standard with
        | (d, .ok ()) => .ok d
        | (_, .error e) => .error (.reading e)

/-- The text that a request asks for. -/
def Request.text (r : Request) (disk : Disk) : Except Failure String := do
  r.validate disk
  return (← generate disk r).text r.format

/-- Writes a file, in folders that are made where they are missing. -/
def Disk.save (disk : Disk) (path content : String) : Except Failure Disk :=
  let folder := FilePath.folderParts path
  match disk.makeFolderAt folder with
  | none => .error (.noFolder (FilePath.ofParts folder))
  | some disk =>
    match disk.target? path with
    | none => .error (.notWritten path)
    | some place => .ok (disk.put place (.file content))

/-- Answers a request: the text, and the disk with its output file. -/
def Request.run (r : Request) (disk : Disk) : Except Failure (String × Disk) := do
  let text ← r.text disk
  match r.output with
  | none => return (text, disk)
  | some path => return (text, ← disk.save path text)

end Apidoc
