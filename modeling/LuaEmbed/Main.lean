import LuaEmbed.CommandLine
import Std.Time.DateTime.Timestamp

/-! # The program

The outermost layer. It takes a picture of the surroundings: the files below the current directory,
standard input, the time, and some variables of the environment. The command line runs on that
picture. What the run has done to it is carried out afterwards: files are written and removed, the
output is printed, and the exit status is given. Nothing is decided here. -/

namespace LuaEmbed.Host

/-- The variables of the environment that a run can see. -/
def visibleVariables : List String :=
  ["PATH", "HOME", "USER", "LANG", "PWD", "SHELL", "TMPDIR", "TZ", "LUA_PATH", "LUA_CPATH"]

/-- The number of directories below each other that are looked into. -/
def maxDepth : Nat := 16

/-- More steps than a run can take. -/
def patience : Nat := 4000000000000000000

/-- Add the entries of a directory and what lies below them; `lead` is its path. What cannot be read
is left out. -/
def gather : Nat → String → List IO.FS.DirEntry → FileSystem → IO FileSystem
  | 0, _, _, files => return files
  | depth + 1, lead, entries, files => do
    let addEntry (files : FileSystem) (e : IO.FS.DirEntry) : IO FileSystem := do
      let path := lead ++ e.fileName
      match (← e.path.metadata).type with
      | .file => return files.add path (← IO.FS.readBinFile e.path)
      | .dir =>
        let below := (← e.path.readDir).toList
        gather depth (path ++ "/") below (files.add (path ++ "/") ByteArray.empty)
      | _ => return files
    entries.foldlM (fun files e => try addEntry files e catch _ => return files) files

/-- Standard input up to its end. A terminal is not waited for and gives nothing. -/
def input : IO Input := do
  let stream ← IO.getStdin
  if ← stream.isTty then return .ofBytes []
  else return .ofBytes (← stream.readBinToEnd).data.toList

/-- The surroundings as they are now. -/
def surroundings : IO World := do
  let entries := (← (← IO.currentDir).readDir).toList
  let files ← gather maxDepth "" entries FileSystem.initial
  let environment ← visibleVariables.filterMapM fun name => do
    return (← IO.getEnv name).map fun value => (name, value)
  let now ← Std.Time.Timestamp.now
  return { World.initial with files, environment, started := now.toSecondsSinceUnixEpoch.val }

/-- Write the files that are new or differ, and remove those that are there no longer. -/
def settle (before after : List (String × Option ByteArray)) : IO Unit := do
  for (path, content) in before.reverse do
    if (after.lookup path).isNone then
      if content.isSome then IO.FS.removeFile path else IO.FS.removeDir path
  for (path, content) in after do
    if before.lookup path != some content then
      match content with
      | some bytes => IO.FS.writeBinFile path bytes
      | none => IO.FS.createDirAll path

end LuaEmbed.Host

open LuaEmbed

/-- Run the program with its arguments. -/
def main (args : List String) : IO UInt32 := do
  let before ← Host.surroundings
  let outcome :=
    CommandLine.run Host.patience (CommandLine.programName :: args) (← Host.input) before
  Host.settle before.files.listing outcome.world.files.listing
  (← IO.getStdout).putStr outcome.world.out
  (← IO.getStderr).putStr outcome.world.err
  return outcome.status.toUInt32
