import Folio.Command.Run
import Folio.Disk.Writer

/-!
# The program

The program reads what a command may look at into a `Disk`, runs the command on it,
writes what the command says, and makes the same changes on the machine's own disk.
All that a command decides is decided before anything is written.
-/

namespace Folio.Program

/-! ## Reading -/

/-- Puts a file on a disk. -/
def withFile (d : Disk) (path : Path) (contents : ByteArray) : Disk :=
  let (d, _) := match path.parent? with
    | some folder => d.makeDirectories folder
    | none => (d, .ok ())
  (d.writeFile path contents).toOption.getD d

/-- Reads what stands at an absolute path, with everything below it. What cannot be
read is left out. -/
partial def readTree (d : Disk) (path : String) : IO Disk := do
  let place := (← IO.currentDir) / path
  if ← place.isDir then
    let mut read := (d.makeDirectories (.ofString path)).1
    for entry in ← place.readDir do
      read ← readTree read (path ++ "/" ++ entry.fileName)
    return read
  else
    try return withFile d (.ofString path) (← IO.FS.readBinFile path)
    catch _ => return d

/-- The path that a path stands for on this machine, if it leads to anything. -/
def realPath? (path : Path) : IO (Option String) := do
  try return some (← IO.FS.realPath path.display).toString
  catch _ => return none

/-- Reads what a path leads to. -/
def readAt (d : Disk) (path : Path) : IO Disk := do
  match ← realPath? path with
  | some real => readTree d real
  | none => return d

/-- Reads the documents of a chain, one after another, as far as they are missing. -/
partial def readChain (d : Disk) (s : Site) (e : Entry) : IO Disk := do
  match s.chainOf d e with
  | .error (.chain (.unreadable path _)) =>
    let read ← readAt d path
    if (read.read path).isOk then readChain read s e else return read
  | _ => return d

/-- Reads what an entry names. -/
def readEntry (d : Disk) (s : Site) (e : Entry) : IO Disk := do
  let d ← readAt d (s.inputPath e)
  let d ← readAt d (s.outputPath e)
  readChain d s e

/-- Reads what the settings of a project name. -/
def readProject (d : Disk) (root : Path) (c : Config) : IO Disk := do
  let named := (c.globals.map fun g => (c.descriptionDir root).join g.path).toList
  let mut read := d
  for path in [c.descriptionDir root, c.outputDir root, c.manifestPath root] ++ named do
    read ← readAt read path
  match Site.load read root with
  | .error _ => return read
  | .ok s =>
    for e in s.manifest.entries do
      read ← readEntry read s e
    return read

/-- Reads all that a command line may look at. -/
def readFor (line : CommandLine) : IO Disk := do
  let here := Path.ofString (← IO.currentDir).toString
  let (d, _) := Disk.empty.makeDirectories here
  let d : Disk := { d with current := here.normal.names }
  let root := line.projectRoot d
  let mut read := d
  if (← realPath? root).isSome then
    read := (read.makeDirectories root).1
  for place in Config.places do
    read ← readAt read (root.join place)
  match Config.load read root with
  | .ok c => readProject read root c
  | .error _ => return read

/-! ## Writing -/

/-- The spelling of a location. -/
def spelled (l : Location) : Path :=
  (Disk.normalOf l).toPath

/-- Makes a directory or a file what it is on a disk. A file gets its contents all
at once. -/
def writeNode (tag : Text) (l : Location) : DiskNode → IO Unit
  | .directory => IO.FS.createDirAll (spelled l).display
  | .file contents => do
    let temporary := (Writer.temporaryFor (spelled l) tag).display
    IO.FS.writeBinFile temporary contents
    IO.FS.rename temporary (spelled l).display

/-- Makes the changes that lead from one disk to another. -/
def writeChanges (tag : Text) (before after : Disk) : IO Unit := do
  let changed := after.nodes.filter fun (l, n) => before.node? l ≠ some n
  for (l, n) in changed.mergeSort fun a b => a.1.length ≤ b.1.length do
    writeNode tag l n
  for l in before.files do
    if (after.node? l).isNone then IO.FS.removeFile (spelled l).display

/-- Writes texts to their channels. -/
def speak (t : Transcript) : IO Unit := do
  let output ← IO.getStdout
  let complaints ← IO.getStderr
  for u in t do
    match u.channel with
    | .output => output.putStr u.text
    | .complaints => complaints.putStr u.text
  output.flush

/-- Writes what a command has said, after the changes that it has made. -/
def carryOut (tag : Text) (before : Disk) (run : CommandRun) : IO Unit := do
  writeChanges tag before run.disk
  speak run.transcript

/-! ## Watching -/

/-- The paths at which two disks differ. -/
def differences (before after : Disk) : List Path :=
  let changed := after.nodes.filter fun (l, n) => before.node? l ≠ some n
  let removed := before.nodes.filter fun (l, _) => (after.node? l).isNone
  (changed ++ removed).map fun (l, _) => spelled l

/-- Reads until nothing changes for some milliseconds. -/
partial def readQuiet (line : CommandLine) (pause : Nat) (d : Disk) : IO Disk := do
  IO.sleep (UInt32.ofNat pause)
  let next ← readFor line
  if (differences d next).isEmpty then return next else readQuiet line pause next

/-- Builds again whenever files have changed. -/
partial def watch (line : CommandLine) (c : Command) (around : Surroundings)
    (filter : WatchFilter) (pause : Nat) (d : Disk) : IO Unit := do
  IO.sleep 100
  let next ← readFor line
  let change : Change := ⟨.modified, differences d next⟩
  if filter.isRelevant change then
    let settled ← readQuiet line pause next
    let run := c.rebuild (line.style around settled) around.tag line.verbose settled
    carryOut around.tag settled run
    watch line c around filter pause run.disk
  else watch line c around filter pause next

/-! ## Running -/

/-- Whether the terminal knows colors and nothing forbids them. -/
def knowsColors : IO Bool := do
  let isForbidden := (← IO.getEnv "NO_COLOR").isSome
  let isForced := (← IO.getEnv "FORCE_COLOR").isSome
  let isDumb := (← IO.getEnv "TERM") = some "dumb"
  return !isForbidden && (isForced || ((← (← IO.getStderr).isTty) && !isDumb))

/-- Runs a command line to its end. -/
def perform (line : CommandLine) (around : Surroundings) : IO UInt32 := do
  let d ← readFor line
  let run := line.run around d
  carryOut around.tag d run
  match run.ending, line.command with
  | .watching filter, some c =>
    let pause := match Config.load run.disk (line.projectRoot run.disk) with
      | .ok config => config.watch.debounce
      | .error _ => 200
    watch line c around filter pause run.disk
    return 0
  | ending, _ => return UInt32.ofNat (ending.code?.getD 0)

/-- The command line with the path of the project as this machine spells it. -/
def located (line : CommandLine) : IO CommandLine := do
  match line.path with
  | none => return line
  | some path =>
    match ← realPath? path with
    | some real => return { line with path := some (.ofString real) }
    | none => return line

end Folio.Program

open Folio Folio.Program in
/-- Runs the program. -/
def main (arguments : List String) : IO UInt32 := do
  let around : Surroundings := ⟨← knowsColors, Text.ofNat (← IO.monoNanosNow)⟩
  match CommandLine.parse ("stencil".toList :: arguments.map String.toList) with
  | .ok line => perform (← located line) around
  | .error reason =>
    let run := CommandLine.stop reason .empty
    speak run.transcript
    return UInt32.ofNat (run.ending.code?.getD 0)
