import Folio.Command.Ending
import Folio.Command.Message
import Folio.Command.Usage

/-!
# Running a command

`CommandLine.runWords` runs a command line on a disk. A site is loaded anew for each
command. Only a build that is no dry run changes the disk.
-/

namespace Folio

open Transcript

namespace Command

/-! ## Building -/

/-- Why a build that came to its end counts as failed. -/
inductive BuildFault where
  | failedEntries (count : Nat)
  | deniedWarnings (count : Nat)

/-- The wording of a fault. -/
def BuildFault.message : BuildFault → String
  | .failedEntries 1 => "1 entry failed to build"
  | .failedEntries count => toString count ++ " entries failed to build"
  | .deniedWarnings count =>
    toString count ++ " template warning(s) reported with --deny-warnings"

/-- Why a build counts as failed, if it does. Failed entries come before warnings. -/
def buildFault? (denyWarnings : Bool) (r : Report) : Option BuildFault :=
  if !r.isOk then some (.failedEntries r.failures.length)
  else if denyWarnings && !r.warnings.isEmpty then some (.deniedWarnings r.warnings.length)
  else none

/-- The results of a build, line by line. -/
def buildResults (style : MessageStyle) (dryRun verbose : Bool) (r : Report) : Transcript :=
  let changed := r.changed.map Artifact.output
  let built := toString r.artifacts.length
  let count := toString changed.length
  if dryRun then
    say ("Dry run: would write " ++ count ++ " of " ++ built ++ " file(s):") ++
      style.paths "" changed
  else
    say ("Built " ++ built ++ " file(s), " ++ count ++ " changed.") ++
      (if verbose then style.paths "" changed else []) ++ style.paths "removed " r.pruned

/-- Builds a site once. -/
def buildSite (style : MessageStyle) (tag : Text) (verbose dryRun denyWarnings : Bool)
    (s : Site) (d : Disk) : CommandRun :=
  let (d, r) := s.build (if dryRun then .dryRun else .write tag) d
  let fault? := buildFault? denyWarnings r
  let transcript :=
    (if verbose then MessageStyle.skipped r.skipped else []) ++ style.warnings r.warnings ++
      buildResults style dryRun verbose r ++ style.failures r.failures ++
      fault?.elim [] fun fault => style.labelled .red "error:" fault.message
  ⟨d, transcript, if fault?.isNone then .success else .failure⟩

/-- Goes on to watch after a build, unless an ignore pattern cannot be read. -/
def thenWatch (s : Site) (built : CommandRun) : CommandRun :=
  let transcript := built.transcript ++
    say "\nWatching for file changes... (press Ctrl+C to stop)"
  match s.watchFilter with
  | .ok filter => ⟨built.disk, transcript, .watching filter⟩
  | .error e => ⟨built.disk, transcript ++ complainText e.report, .fatal⟩

/-! ## Checking -/

/-- Checks that a build would fail nowhere and change no output. -/
def checkSite (style : MessageStyle) (diff : Bool) (s : Site) (d : Disk) : CommandRun :=
  let (d, r) := s.build .dryRun d
  let about := style.warnings r.warnings ++ r.changed.flatMap (style.stale diff) ++
    style.failures r.failures
  if r.changed.isEmpty && r.isOk then
    ⟨d, about ++ say "All outputs are up to date.", .success⟩
  else
    let advice :=
      if r.changed.isEmpty then []
      else complain ("\n" ++ toString r.changed.length ++
        " output(s) are out of date. Run \x60stencil build\x60 to update them.")
    ⟨d, about ++ advice, .failure⟩

/-! ## Listing -/

/-- A text with blanks in front of it, up to a width. -/
def padFront (width : Nat) (text : String) : String :=
  String.ofList (List.replicate (width - text.length) ' ') ++ text

/-- A text with blanks behind it, up to a width. -/
def padBehind (width : Nat) (text : String) : String :=
  text ++ String.ofList (List.replicate (width - text.length) ' ')

/-- The line on what an entry maps. -/
def entryLine (e : Entry) : String :=
  "  " ++ padFront 4 (toString e.line) ++ "  " ++ padBehind 8 e.mode.name ++ " " ++
    e.input.display ++ " -> " ++ e.output.display

/-- The line on the chain of a template, or on why there is none. -/
def chainLine (style : MessageStyle) (s : Site) (d : Disk) (e : Entry) : String :=
  padFront 17 "" ++
    match s.chainOf d e with
    | .ok chain =>
      let names := chain.map fun p => String.ofList (p.shownFrom s.descriptionDir)
      "chain: " ++ " -> ".intercalate names
    | .error reason => Emphasis.red.apply style.colors "error:" ++ " " ++ reason.message

/-- The lines on an entry. -/
def listEntry (style : MessageStyle) (s : Site) (d : Disk) (e : Entry) : Transcript :=
  match e.mode with
  | .template => say (entryLine e) ++ say (chainLine style s d e)
  | .copy => say (entryLine e)

/-- Lists the entries of the manifest. -/
def listSite (style : MessageStyle) (verbose : Bool) (s : Site) (d : Disk) : CommandRun :=
  let transcript := say (Emphasis.bold.apply style.colors "Manifest entries:") ++
    s.manifest.entries.flatMap (listEntry style s d) ++
    if verbose then MessageStyle.skipped s.manifest.skipped else []
  ⟨d, transcript, .success⟩

/-! ## Commands -/

/-- What a watching build does when files have changed. -/
def rebuild (c : Command) (style : MessageStyle) (tag : Text) (verbose : Bool) (d : Disk) :
    CommandRun :=
  let denyWarnings := c matches .build _ _ true
  let built := match Site.load d style.root with
    | .ok s => buildSite style tag verbose false denyWarnings s d
    | .error e => ⟨d, complainText e.report, .fatal⟩
  { built with transcript := say "\nFile change detected, rebuilding..." ++ built.transcript }

/-- Runs a command on a loaded site. -/
def runOn (style : MessageStyle) (tag : Text) (verbose : Bool) (s : Site) (d : Disk) :
    Command → CommandRun
  | .build dryRun goOn denyWarnings =>
    let built := buildSite style tag verbose dryRun denyWarnings s d
    if goOn && !dryRun then thenWatch s built else built
  | .watch => thenWatch s (buildSite style tag verbose false false s d)
  | .check diff => checkSite style diff s d
  | .list => listSite style verbose s d

/-- Loads the site in the directory that messages start from, and runs a command on
it. -/
def run (c : Command) (style : MessageStyle) (tag : Text) (verbose : Bool) (d : Disk) :
    CommandRun :=
  match Site.load d style.root with
  | .ok s => runOn style tag verbose s d c
  | .error e => ⟨d, complainText e.report, .fatal⟩

end Command

namespace CommandLine

/-- The directory of the project: the one that is named or else the current one,
spelled out from the root if it exists. -/
def projectRoot (line : CommandLine) (d : Disk) : Path :=
  let spelled (l : Location) : Path := (Disk.normalOf l).toPath
  let root := line.path.getD (spelled d.current)
  match d.find? root with
  | .ok l => spelled l
  | .error _ => root

/-- How the messages of a command line look. -/
def style (line : CommandLine) (around : Surroundings) (d : Disk) : MessageStyle :=
  ⟨line.projectRoot d, around.colors && !line.noColor⟩

/-- Runs a command line. -/
def run (line : CommandLine) (around : Surroundings) (d : Disk) : CommandRun :=
  match line.command with
  | none => ⟨d, complain "No subcommand specified. Run \x60stencil --help\x60 for usage.", .fatal⟩
  | some c => c.run (line.style around d) around.tag line.verbose d

/-- Answers words that run no command. -/
def stop (reason : UsageStop) (d : Disk) : CommandRun :=
  match reason.fault? with
  | none => ⟨d, say reason.advice, .success⟩
  | some fault => ⟨d, complain ("error: " ++ fault) ++ complain reason.advice, .fatal⟩

/-- Runs the words of a command line, the first of which names the program. -/
def runWords (words : List Text) (around : Surroundings) (d : Disk) : CommandRun :=
  match parse words with
  | .ok line => line.run around d
  | .error reason => stop reason d

end CommandLine

end Folio
