import Folio.Site.Artifact
import Folio.Site.Pool
import Folio.Site.Prune

/-!
# Building a site

`Site.build` renders every entry of the manifest and reports the artifacts and
the failures, each in the order of the manifest. A failed entry does not keep
the others from being built. Afterwards the output directory is pruned, if the
configuration asks for it and artifacts are written.
-/

namespace Folio

/-- An entry that could not be built. -/
structure EntryFailure where
  entry : Entry
  error : SiteError

/-- What a build has done. -/
structure Report where
  artifacts : List Artifact
  failures : List EntryFailure
  skipped : List SkippedLine
  /-- The files removed from the output directory. -/
  pruned : List Path

namespace Report

/-- Whether every entry was built. -/
def isOk (r : Report) : Bool :=
  r.failures.isEmpty

/-- All warnings, in the order of the artifacts. -/
def warnings (r : Report) : List Warning :=
  r.artifacts.flatMap Artifact.warnings

/-- The artifacts whose output held something else before. -/
def changed (r : Report) : List Artifact :=
  r.artifacts.filter Artifact.isChanged

/-- What became of an entry: an artifact, an error, or nothing because its worker
was lost. -/
abbrev Outcome := Option (Except SiteError Artifact)

/-- The failure of an entry. -/
def failure? (e : Entry) : Outcome → Option EntryFailure
  | some (.ok _) => none
  | some (.error error) => some ⟨e, error⟩
  | none => some ⟨e, .worker⟩

/-- The artifact in an outcome. -/
def artifact? : Outcome → Option Artifact
  | some (.ok a) => some a
  | _ => none

/-- The report on a manifest of which each entry has an outcome. -/
def ofOutcomes (m : Manifest) (outcomes : List Outcome) (pruned : List Path) : Report where
  artifacts := outcomes.filterMap artifact?
  failures := (m.entries.zip outcomes).filterMap fun (e, o) => failure? e o
  skipped := m.skipped
  pruned := pruned

end Report

namespace Site

/-- Builds entries one after another, each as a task of the pool. -/
def buildEntries (s : Site) (mode : BuildMode) (d : Disk)
    (pool : Pool (Except SiteError Artifact)) :
    List Entry → Disk × Pool (Except SiteError Artifact)
  | [] => (d, pool)
  | e :: rest =>
    let (d, result) := s.renderEntry d mode e
    s.buildEntries mode d (pool.start.answer pool.started result) rest

/-- Prunes the output directory after a build, where that is asked for. -/
def pruneAfter (s : Site) (mode : BuildMode) (d : Disk) : Disk × List Path :=
  match s.config.prune, mode with
  | true, .write _ =>
    match s.prune d with
    | (d, .ok removed) => (d, removed)
    | (d, .error _) => (d, [])
  | _, _ => (d, [])

/-- Builds every entry. -/
def build (s : Site) (mode : BuildMode) (d : Disk) : Disk × Report :=
  let entries := s.manifest.entries
  let pool : Pool (Except SiteError Artifact) :=
    { bound := s.config.jobBound 1, total := entries.length }
  let (d, pool) := s.buildEntries mode d pool entries
  let (d, pruned) := s.pruneAfter mode d
  (d, .ofOutcomes s.manifest pool.results pruned)

end Site

end Folio
