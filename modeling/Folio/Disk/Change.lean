import Folio.Disk.Basic

/-!
# Changes of a disk

Single changes of a disk: making directories, writing, renaming and removing a
file. Each succeeds or says why it failed. `Disk.makeDirectories` may have made some
of the directories before it fails, and `Disk.removeFiles` may have removed some of the
files, so these always answer a disk.
-/

namespace Folio.Disk

/-- Puts a node under a name into a directory, where no directory stands. -/
def putAt (d : Disk) (folder : Location) (n : Text) (v : DiskNode) : Except SystemError Disk :=
  if hf : d.node? folder = some .directory then
    if hn : d.node? (folder ++ [n]) ≠ some .directory then .ok (d.put folder n v hf hn)
    else .error .isDirectory
  else .error .notDirectory

/-- Makes one directory. -/
def makeDirectory (d : Disk) (p : Path) : Except SystemError Disk := do
  match ← d.holder? p with
  | (_, .dots) => .error .entryExists
  | (folder, .name n _) =>
    if (d.node? (folder ++ [n])).isSome then .error .entryExists
    else d.putAt folder n .directory

/-- Makes a directory that may be there already. -/
def ensureDirectory (d : Disk) (p : Path) : Disk × Except SystemError Unit :=
  match d.makeDirectory p with
  | .ok d => (d, .ok ())
  | .error e => if d.isDirectory p then (d, .ok ()) else (d, .error e)

/-- Makes a directory, and each of the directories above it that is missing. The
argument `above` bounds how many there are. The empty path needs no directory. -/
def makeUpTo (d : Disk) (p : Path) (above : Nat) : Disk × Except SystemError Unit :=
  if p.text.isEmpty then (d, .ok ())
  else
    match above, d.makeDirectory p, p.parent? with
    | above + 1, .error .noEntry, some parent =>
      match d.makeUpTo parent above with
      | (d, .ok ()) => d.ensureDirectory p
      | (d, .error e) => (d, .error e)
    | _, _, _ => d.ensureDirectory p

/-- Makes a directory and those above it, as far as they are missing. -/
def makeDirectories (d : Disk) (p : Path) : Disk × Except SystemError Unit :=
  d.makeUpTo p p.components.length

/-- Writes a file, in place of one that may be there. -/
def writeFile (d : Disk) (p : Path) (contents : ByteArray) : Except SystemError Disk := do
  match ← d.holder? p with
  | (_, .dots) => .error .isDirectory
  | (folder, .name n slash) =>
    if slash then .error .isDirectory else d.putAt folder n (.file contents)

/-- Removes what stands at a location, which is no directory. -/
def eraseFile (d : Disk) (l : Location) : Disk :=
  d.removeTree l

/-- Removes a file. -/
def removeFile (d : Disk) (p : Path) : Except SystemError Disk := do
  let l ← d.find? p
  match d.node? l with
  | some (.file _) => return d.eraseFile l
  | _ => .error .isDirectory

/-- Removes files one after another, until one of them cannot be removed. -/
def removeFiles (d : Disk) : List Path → Disk × Except SystemError Unit
  | [] => (d, .ok ())
  | p :: rest =>
    match d.removeFile p with
    | .ok d => d.removeFiles rest
    | .error e => (d, .error e)

/-- Gives a file another name, in place of a file that may have it. -/
def rename (d : Disk) (source target : Path) : Except SystemError Disk := do
  let l ← d.find? source
  match d.node? l, ← d.holder? target with
  | some (.file _), (_, .dots) => .error .busy
  | some (.file contents), (folder, .name n slash) =>
    if slash then .error .notDirectory
    else if folder ++ [n] = l then return d
    else (d.eraseFile l).putAt folder n (.file contents)
  | _, _ => .error .isDirectory

end Folio.Disk
