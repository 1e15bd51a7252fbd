import Folio.Disk.Change
import Folio.Site.Basic

/-!
# Pruning the output directory

Pruning removes the files below the output directory that no entry of the
manifest gives. It is refused when the root directory or the description
directory lies in the output directory, for then it would remove sources.

The files are those that a walk comes to, which goes down from the output directory
and opens one directory after another by its path. They are removed by their paths,
one after another; when one of them cannot be removed, pruning fails, and those before
it are gone all the same.
-/

namespace Folio.Site

/-- Whether a normal form lies at or below another. -/
def liesIn (inner outer : NormalPath) : Bool :=
  outer.components.isPrefixOf inner.components

/-- The directories that may not be pruned. -/
def sourceDirs (s : Site) : List Path :=
  [s.root, s.descriptionDir]

/-- The normal forms of all outputs. -/
def expected (s : Site) : List NormalPath :=
  s.manifest.entries.map fun e => (s.outputPath e).normal

/-- The path that leads down by names from the output directory. -/
def spelledBelow (s : Site) (names : List Text) : Path :=
  names.foldl (fun p n => p.join ⟨n⟩) s.outputDir

/-- The names that lead down from a location to the files below it. -/
def namesBelow (d : Disk) (l : Location) : List (List Text) :=
  (d.files.filter l.isPrefixOf).map fun file => file.drop l.length

/-- Whether a walk over the output directory comes to the file to which names lead
down : the directory that holds it can be opened. -/
def Visits (s : Site) (d : Disk) (names : List Text) : Prop :=
  (∀ n ∈ names, n.IsName) ∧ d.isDirectory (s.spelledBelow names.dropLast)

instance (s : Site) (d : Disk) (names : List Text) : Decidable (s.Visits d names) :=
  inferInstanceAs (Decidable (_ ∧ _))

/-- The files that a walk comes to and that no entry gives, by the names that lead down
to them from the location of the output directory. -/
def stale (s : Site) (d : Disk) (l : Location) : List (List Text) :=
  (namesBelow d l).filter fun names =>
    s.Visits d names ∧ !s.expected.contains (s.spelledBelow names).normal

/-- Removes the files that no entry gives and answers their paths in order. -/
def prune (s : Site) (d : Disk) : Disk × Except SiteError (List Path) :=
  match d.isDirectory s.outputDir, d.find? s.outputDir with
  | true, .ok l =>
    let output := d.resolve s.outputDir
    match s.sourceDirs.find? fun p => liesIn (d.resolve p) output with
    | some source => (d, .error (.unsafePrune s.outputDir source))
    | none =>
      let stale := (s.stale d l).map s.spelledBelow
      match d.removeFiles stale with
      | (d, .ok ()) => (d, .ok (stale.mergeSort Path.le))
      | (d, .error e) => (d, .error (.unremovable e))
  | _, _ => (d, .ok [])

end Folio.Site
