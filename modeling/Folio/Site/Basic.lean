import Folio.Chain.Walk
import Folio.Globals
import Folio.Manifest
import Folio.Site.Config

/-!
# Sites

A `Site` is a project whose configuration, manifest and global variables are
loaded. `Site.load` loads it; it is loaded whole or not at all.
-/

namespace Folio

/-- A loaded project. -/
structure Site where
  /-- The directory that the paths of the configuration start from. -/
  root : Path
  config : Config
  manifest : Manifest
  globals : Scope

namespace Manifest

/-- Reads the manifest at a path. -/
def load (d : Disk) (path : Path) : Except SiteError Manifest :=
  match d.readText path with
  | .ok content => .ok (.ofText content)
  | .error reason => .error (.unreadableManifest path reason)

end Manifest

namespace Config

/-- The global variables in a file below the description directory. -/
def loadFile (c : Config) (d : Disk) (root : Path) (file : GlobalsFile) :
    Except SiteError (Dict Text) :=
  match d.readText ((c.descriptionDir root).join file.path) with
  | .error reason => .error (.unreadableGlobals file.path reason)
  | .ok content =>
    match Globals.parse file.format content with
    | .ok value => .ok value.flatten
    | .error .malformed => .error (.malformedGlobals file.path)
    | .error (.unsupported format) => .error (.unknownFormat format)

/-- The global variables: those of the file, and on top of them those of the
configuration. -/
def loadGlobals (c : Config) (d : Disk) (root : Path) : Except SiteError Scope := do
  let fromFile ← match c.globals with
    | none => pure .empty
    | some file => c.loadFile d root file
  return fromFile.extend c.bindings.toList

end Config

namespace Site

/-- Loads the project in a directory. -/
def load (d : Disk) (root : Path) : Except SiteError Site := do
  let config ← Config.load d root
  let manifest ← Manifest.load d (config.manifestPath root)
  let globals ← config.loadGlobals d root
  return ⟨root, config, manifest, globals⟩

/-- The directory of the manifest and the templates. -/
def descriptionDir (s : Site) : Path :=
  s.config.descriptionDir s.root

/-- The directory that outputs are relative to. -/
def outputDir (s : Site) : Path :=
  s.config.outputDir s.root

/-- The path of an entry's input. -/
def inputPath (s : Site) (e : Entry) : Path :=
  s.descriptionDir.join e.input

/-- The path of an entry's output. -/
def outputPath (s : Site) (e : Entry) : Path :=
  s.outputDir.join e.output

/-- The rules that templates are segmented by. -/
def rules (s : Site) : Rules :=
  ⟨s.descriptionDir, s.config.strictFill⟩

/-- The documents that an entry's template inherits from, itself first. -/
def chainOf (s : Site) (d : Disk) (e : Entry) : Except SiteError (List Path) :=
  (d.source.chainOf s.rules (s.inputPath e)).mapError .chain

/-- The filter that tells which changes call for building the site again. -/
def watchFilter (s : Site) : Except SiteError WatchFilter :=
  match IgnoreSet.ofPatterns s.config.watch.ignore with
  | .ok ignore => .ok ⟨s.descriptionDir, s.outputDir, ignore⟩
  | .error e => .error (.ignore e)

end Site

end Folio
