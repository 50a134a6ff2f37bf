import Lox.CommandLine
import Std.Time.DateTime.Timestamp

/-!
The command-line program. The source file, the files below the working directory, the whole input and
the clock are read before a command starts, and the files that it changed are written when it has
ended.
-/

namespace Lox.CommandLine

structure Arguments where
  words : List String := []
  json : Bool := false
  log : Bool := false
  logFile : String := "app.log"
  maxCallDepth : Nat := Machine.defaultMaxCallDepth

def Arguments.read? : List String → Arguments → Option Arguments
  | [], arguments => some arguments
  | "--json" :: rest, arguments => read? rest { arguments with json := true }
  | "--log" :: rest, arguments => read? rest { arguments with log := true }
  | "--log-file" :: name :: rest, arguments => read? rest { arguments with logFile := name }
  | "--max-call-depth" :: depth :: rest, arguments =>
      depth.toNat?.bind fun maxCallDepth => read? rest { arguments with maxCallDepth }
  | word :: rest, arguments =>
      if word.startsWith "--" then none
      else read? rest { arguments with words := arguments.words ++ [word] }

def command? (words : List String) (json : Bool) : Option Command :=
  match words, json with
  | ["tokenize", file], _ => some (.tokenize file json)
  | ["parse", file], false => some (.parse file)
  | ["evaluate", file], false => some (.evaluate file)
  | ["run", file], false => some (.run file)
  | ["repl"], false => some .repl
  | _, _ => none

def invocation? (words : List String) : Option Invocation := do
  let arguments ← Arguments.read? words {}
  let command ← command? arguments.words arguments.json
  return { command, maxCallDepth := arguments.maxCallDepth,
           logFile := if arguments.log then some arguments.logFile else none }

def usage : String :=
  "usage: lox (tokenize [--json] | parse | evaluate | run) FILE | repl\n" ++
    "       [--log] [--log-file FILE] [--max-call-depth DEPTH]\n"

def ampleFuel : Nat := Nat.pow 2 60

end Lox.CommandLine

open Lox

/-- Adds a directory entry and what lies below it. Links to directories are not followed, and what
cannot be read is left out. -/
partial def loadEntry (files : Files) (directory : Directory) (entry : IO.FS.DirEntry) :
    IO Files := do
  let names := entry.fileName :: directory
  try
    match (← entry.path.symlinkMetadata).type with
    | .dir =>
        (← entry.path.readDir).foldlM (fun files inner => loadEntry files names inner)
          (files.insert names .directory)
    | .file | .symlink =>
        return files.insert names (.file (← IO.FS.readBinFile entry.path).toList)
    | .other => return files
  catch _ => return files

def loadSource (files : Files) (name : String) : IO Files := do
  try
    let path ← IO.FS.realPath name
    let names := (path.components.filter (· ≠ "")).reverse
    return files.insert names (.file (← IO.FS.readBinFile path).toList)
  catch _ => return files

def loadFiles (command : Command) : IO Files := do
  let directory ← IO.currentDir
  let here := (directory.components.filter (· ≠ "")).reverse
  let files ← (← directory.readDir).foldlM (fun files entry => loadEntry files here entry)
    (Files.empty here)
  match command.file? with
  | some name => loadSource files name
  | none => return files

def saveFiles (before after : Files) : IO Unit :=
  for (path, entry) in after.entries.toList do
    match entry with
    | .file bytes =>
        if before.entries[path]? ≠ some entry then IO.FS.writeBinFile ("/" ++ path) ⟨bytes.toArray⟩
    | .directory => pure ()

def readClock : IO Number := do
  let now ← Std.Time.Timestamp.now
  return .ofDecimal (now.toNanosecondsSinceUnixEpoch.val / 1000).toNat 6

def main (words : List String) : IO UInt32 := do
  match CommandLine.invocation? words with
  | none =>
      IO.eprint CommandLine.usage
      return 2
  | some invocation =>
      let files ← loadFiles invocation.command
      let input ← (← IO.getStdin).readBinToEnd
      let host : Host := { files, input := input.toList, clock := ← readClock }
      match CommandLine.run CommandLine.ampleFuel invocation host with
      | none => return 1
      | some outcome =>
          IO.print outcome.output
          IO.eprint outcome.errors
          saveFiles files outcome.files
          return outcome.status.toUInt32
