import Backslice.Command.Run
import Backslice.Json.Reader
import Backslice.Tree.OfJson

namespace Backslice.Program

def usage : String :=
  "usage: backslice [--function NAME] [--language c|cpp] [--config FILE] [--dot PATH]\n" ++
    "                 [--print-pdg] [--step-budget N] [--log-level LEVEL] [--show]\n" ++
    "                 file output line variable\n"

def treePath (file : String) : String := file ++ ".tree.json"

def readIfPresent (path : String) : IO (Option ByteArray) :=
  try
    let content ← IO.FS.readBinFile path
    return some content
  catch _ => return none

def isFolder (path : String) : IO Bool :=
  try
    let _ ← IO.FS.realPath (path ++ "/.")
    return true
  catch _ => return false

def load (w : Workspace) (path : String) : IO Workspace := do
  let mut w := w
  let mut place := Workspace.start path
  for name in Workspace.names path do
    place := place.enter name
    if ← isFolder place.path then w := { w with folders := place :: w.folders }
  match ← readIfPresent path with
  | some content => return { w with files := w.files.put place content }
  | none => return w

def loadTree (file : String) : IO (Tree × Bool) := do
  let text := (← readIfPresent (treePath file)).bind String.fromUTF8?
  let data := (text.bind fun s => (Json.read s.length s).toOption).getD .null
  let tree := ((data.field? "tree").bind Tree.ofJson?).getD .empty
  let damaged := ((data.field? "has_error").map Json.isTrue).getD false
  return (tree, damaged)

def errorText : RunError → String
  | .settings e => e.message
  | .file e => e.message
  | .noPath => "a path is missing"
  | .notText => "the source is not text"
  | .analysis e => if e.message = "" then "the syntax tree is not what it should be" else e.message
  | .slice e => e.message toString toString
  | .label e => e.message

def runCommand (c : Command) : IO UInt32 := do
  let file := (Command.requiredPath c.file).toOption
  let output := (Command.requiredPath c.output).toOption
  let picture := (Command.path? c.picture).map (· ++ ".dot")
  let paths := [file, output, Command.path? c.config, picture].filterMap id
  let before ← paths.foldlM load {}
  let tree ← loadTree (file.getD "")
  let stamp := toString (← IO.monoMsNow)
  match c.run (fun _ => tree) before with
  | .error e =>
    IO.eprintln (errorText e)
    return 1
  | .ok report =>
    for (place, content) in report.workspace.changesSince before do
      IO.FS.writeBinFile place.path content
    IO.print (report.text stamp)
    IO.eprint report.complaint
    return report.status.toUInt32

end Backslice.Program

def main (arguments : List String) : IO UInt32 := do
  match Backslice.Command.parse arguments with
  | .ok c => Backslice.Program.runCommand c
  | .error .help =>
    IO.print Backslice.Program.usage
    return 0
  | .error .rejected =>
    IO.eprint Backslice.Program.usage
    return 2
