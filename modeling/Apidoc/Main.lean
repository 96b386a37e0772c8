import Apidoc.CommandLine

namespace Apidoc.Main

/-- The entry of a directory, with the contents of those files that a request can look at. -/
partial def entry (e : IO.FS.DirEntry) : IO Entry := do
  if ← e.path.isDir then
    if Scan.isIgnored e.fileName then return .empty
    let children ← e.path.readDir
    let entries ← children.toList.mapM fun child => do return (child.fileName, ← entry child)
    return .folder entries
  let place := [e.fileName]
  if Scan.isSource place || Scan.isDescriptor place || e.fileName == Scan.configName then
    try return .file (← IO.FS.readFile e.path)
    catch _ => return .file ""
  return .file ""

/-- What is at a path, if anything is. -/
def entryAt? (path : String) : IO (Option Entry) := do
  try
    let place ← IO.FS.realPath path
    if ← place.isDir then
      let children ← place.readDir
      let entries ← children.toList.mapM fun child => do return (child.fileName, ← entry child)
      return some (.folder entries)
    return some (.file (← IO.FS.readFile place))
  catch _ => return none

/-- The names that lead to a path from the top. -/
def namesOf (home : List String) (path : String) : List String :=
  let parts := FilePath.parts path
  parts.foldl (fun place part =>
    if FilePath.isIdle part then place else if part = ".." then place.dropLast else place ++ [part])
    (if parts.head? = some "" then [] else home)

/-- The disk as far as a request is about it. -/
def diskFor (r : Request) : IO Disk := do
  let home := namesOf [] (← IO.currentDir).toString
  let mut disk : Disk := { home }
  disk := disk.put home .empty
  for path in r.project :: r.config.toList do
    if let some e ← entryAt? path then
      disk := disk.put (namesOf home path) e
  return if (disk.at? home).isNone then disk.put home .empty else disk

def usage : String :=
  "Usage: apidoc [OPTIONS] <PROJECT_PATH>\n\n" ++
  "Options:\n" ++
  "  -f, --format <OUTPUT_FORMAT>  Output format (yaml or json) [default: yaml]\n" ++
  "  -o, --output <FILE>           Output file path (if not specified, outputs to stdout)\n" ++
  "  -c, --config <FILE>           Project config file\n" ++
  "  -v, --verbose                 Enable verbose output\n" ++
  "  -h, --help                    Print help\n" ++
  "  -V, --version                 Print version"

def faultMessage : UsageFault → String
  | .missingRequired => "error: the following required arguments were not provided: <PROJECT_PATH>"
  | .invalidValue => "error: a value is missing or invalid"
  | .unknown => "error: unexpected argument found"
  | .conflict => "error: an argument cannot be used multiple times"
  | .tooManyValues => "error: unexpected value for an argument"
  | .help => usage
  | .version => "apidoc 0.1.0"

/-- Writes a text to a file, in folders that are made where they are missing. -/
def save (path text : String) : IO Unit := do
  let folder := FilePath.ofParts (FilePath.folderParts path)
  if folder ≠ "" then IO.FS.createDirAll folder
  IO.FS.writeFile path text

/-- What a failure says, with its cause. -/
def failureMessage (f : Failure) : String :=
  "Error: " ++ f.message ++ match f with
    | .reading e => "\n\nCaused by:\n    " ++ e.message
    | _ => ""

end Apidoc.Main

def main (args : List String) : IO UInt32 := do
  match Apidoc.CommandLine.parse args with
  | .error fault =>
    if fault = .help || fault = .version then
      IO.println (Apidoc.Main.faultMessage fault)
      return 0
    IO.eprintln (Apidoc.Main.faultMessage fault)
    return 2
  | .ok request =>
    match request.text (← Apidoc.Main.diskFor request) with
    | .error failure =>
      IO.eprintln (Apidoc.Main.failureMessage failure)
      return 1
    | .ok text =>
      match request.output with
      | none => IO.println text
      | some path => Apidoc.Main.save path text
      return 0
