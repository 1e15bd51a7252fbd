import Folio.Proofs.Command.Ending
import Folio.Proofs.Command.Root
import Folio.Proofs.Site.Again

/-!
# Building and then checking

A build that ends well promises that nothing is left to be done. It keeps that promise as
long as it does not disturb what it reads and entries that share an output agree on it.
`CommandLine.build_then_check` : after a build that has ended well and has left alone what
it reads, a check ends well if and only if the artifacts at each place agree, and then a
second build has nothing to do and leaves the disk as it is. The order in which the workers
end does not matter (`CommandLine.crew_then_check`).

The entries of a manifest are built each for itself, and none of them is refused because
of another one. So two of them may give one output different contents, an entry may write
what another one has read, and pruning may remove what was read. The check that follows
then fails (`CommandLine.check_fails_after_build`).
-/

namespace Folio

namespace CommandLine

variable {line : CommandLine} {around : Surroundings} {d : Disk} {s : Site} {deny diff : Bool}

/-- A build on the command line builds the site of its root. -/
theorem run_build (hcommand : line.command = some (.build false false deny))
    (hload : Site.load d (line.projectRoot d) = .ok s) : line.run around d =
      Command.buildSite (line.style around d) around.tag line.verbose false deny s d :=
  run_of_load hcommand hload

/-- A build that ends well has no failures. -/
theorem isOk_of_buildSite {style : MessageStyle} {tag : Text} {verbose : Bool}
    (h : (Command.buildSite style tag verbose false deny s d).ending.code? = some 0) :
    (s.build (.write tag) d).2.isOk := by
  rw [Command.buildSite_ending false, (Command.code_ending _ _).2] at h
  exact Command.isOk_iff.2 (Classical.byContradiction fun hfailed => h (Or.inl hfailed))

/-- A check ends well if a dry run has no failures and changes nothing. -/
theorem checkSite_code {style : MessageStyle} :
    (Command.checkSite style diff s d).ending.code? = some 0 ↔
      (s.build .dryRun d).2.changed = [] ∧ (s.build .dryRun d).2.isOk := by
  rw [Command.checkSite_eq.2, (Command.code_ending _ _).2, Command.Fails,
    ← Command.changed_isEmpty_and_isOk_iff, Bool.and_eq_true, List.isEmpty_iff]

theorem run_check (hload : Site.load d (line.projectRoot d) = .ok s) :
    ({ line with command := some (.check diff) } : CommandLine).run around d =
      Command.checkSite (line.style around d) diff s d :=
  @run_of_load { line with command := some (.check diff) } around d (.check diff) s rfl hload

theorem run_disk (hcommand : line.command = some (.build false false deny))
    (hload : Site.load d (line.projectRoot d) = .ok s) :
    (line.run around d).disk = (s.build (.write around.tag) d).1 := by
  rw [run_build hcommand hload]
  rfl

/-- Where artifacts are given again, a check ends well if all outputs hold them. -/
theorem check_of_settled {artifacts : List Artifact}
    (hload : Site.load d (line.projectRoot d) = .ok s) (hsettled : s.Settled d artifacts) :
    (({ line with command := some (.check diff) } : CommandLine).run around d).ending.code? =
      some 0 ↔ ∀ a ∈ artifacts, d.read a.output = .ok a.contents := by
  rw [run_check hload, checkSite_code, hsettled.build_dryRun, Site.changed_again_eq_nil_iff]
  exact and_iff_left rfl

/-- After a build that has ended well and has left alone what it reads, the same site is
loaded again, and a check ends well if and only if artifacts whose outputs stand at one
place have the same contents. Then a second build changes nothing and leaves the disk as
it is. -/
theorem build_then_check {words : List Text} (hparse : parse words = .ok line)
    (hcommand : line.command = some (.build false false deny))
    (hcurrent : ∀ n ∈ d.current, n.IsName)
    (hload : Site.load d (line.projectRoot d) = .ok s)
    (hexit : (line.run around d).ending.code? = some 0)
    (hu : s.Undisturbed around.tag d) :
    let built := (line.run around d).disk
    let report := (s.build (.write around.tag) d).2
    Site.load built (line.projectRoot built) = .ok s ∧
    (∀ (diff : Bool) (later : Surroundings),
      (({ line with command := some (.check diff) } : CommandLine).run later
        built).ending.code? = some 0 ↔ report.Agrees d) ∧
    (report.Agrees d → ∀ tag : Text,
      (s.build (.write tag) built).1 = built ∧ (s.build (.write tag) built).2.changed = []) := by
  have hpath : line.path ≠ some ⟨[]⟩ := path_of_parse hparse
  have hroot : s.root.isAbsolute := isAbsolute_root hpath hload
  have hok : (s.build (.write around.tag) d).2.isOk := by
    rw [run_build hcommand hload] at hexit
    exact isOk_of_buildSite hexit
  intro built report
  have hbuilt : built = (s.build (.write around.tag) d).1 := run_disk hcommand hload
  have hloaded : Site.load built (line.projectRoot built) = .ok s := by
    rw [hbuilt]
    exact load_projectRoot_again hpath hcurrent hload (Site.frame_build s around.tag d)
      (Site.load_build hok hu hroot)
  refine ⟨hloaded, fun diff later => ?_, fun hagree tag => ?_⟩
  · have hsettled := Site.settled_build hok hu
    rw [← hbuilt] at hsettled
    rw [check_of_settled hloaded hsettled, hbuilt, Site.read_outputs_iff hok hu hroot]
  · have hread := (Site.read_outputs_iff hok hu hroot).2 hagree
    rw [hbuilt, Site.build_build hok hu hroot hagree tag]
    exact ⟨rfl, Site.changed_again_eq_nil_iff.2 hread⟩

/-- The same after any run of a crew that goes well and has left alone what it reads, if its
workers render what is there and do not disturb one another. -/
theorem crew_then_check {words : List Text} (hparse : parse words = .ok line)
    (hcurrent : ∀ n ∈ d.current, n.IsName) (hload : Site.load d (line.projectRoot d) = .ok s)
    {mode : BuildMode} {bound : Nat} {events : List Crew.Event} {crew crew' : Crew} {r : Report}
    (hwrites : mode.writes)
    (hrun : Crew.Run s mode (Crew.Proper s mode d) (Crew.start bound d) events crew)
    (hstep : Crew.Step s mode crew .report crew') (hr : crew'.report = some r) (hok : r.isOk)
    (hu : Crew.Undisturbed s d events crew crew' r) :
    let built := crew'.disk
    Site.load built (line.projectRoot built) = .ok s ∧
    (∀ (diff : Bool) (later : Surroundings),
      (({ line with command := some (.check diff) } : CommandLine).run later
        built).ending.code? = some 0 ↔ r.Agrees d) ∧
    (r.Agrees d → ∀ tag : Text,
      (s.build (.write tag) built).1 = built ∧ (s.build (.write tag) built).2.changed = []) := by
  have hpath : line.path ≠ some ⟨[]⟩ := path_of_parse hparse
  have hroot : s.root.isAbsolute := isAbsolute_root hpath hload
  have hread := Crew.read_outputs_iff hrun hstep hr hok hwrites hroot
  intro built
  have hloaded : Site.load built (line.projectRoot built) = .ok s :=
    load_projectRoot_again hpath hcurrent hload (Crew.frame_report hrun.tidy hstep)
      (Crew.load_report hrun hstep hr hok hu hroot)
  refine ⟨hloaded, fun diff later => ?_, fun hagree tag => ?_⟩
  · exact (check_of_settled hloaded (Crew.settled hrun hstep hr hok hu)).trans hread
  · rw [Crew.build_report hrun hstep hr hok hwrites hu hroot hagree tag]
    exact ⟨rfl, Site.changed_again_eq_nil_iff.2 (hread.2 hagree)⟩

/-! ## Some projects -/

/-- The words that run a command in the directory `/p`. -/
def wordsInProject (command : String) : List Text :=
  ["stencil", "--path", "/p", command].map String.toList

/-- The line that these words are for a build. -/
def buildProject : CommandLine :=
  ⟨some (.build false false false), some (.ofString "/p"), false, false⟩

/-- Surroundings without colors. -/
def plain : Surroundings :=
  ⟨false, ['1']⟩

/-- A project with a template, a layout that it inherits from, a file that is copied, an
old output, and one that no entry gives any more. -/
def oldProject : Disk :=
  .ofFiles [
    ("/p/stencil.toml", "prune = true\n"),
    ("/p/site-description/out.txt", "page > $ > page.html\nraw > = > raw.txt\n"),
    ("/p/site-description/page", "$<inherit layout>$$<fill title>$Home"),
    ("/p/site-description/layout", "<h1>$<slot title>$</h1>\n"),
    ("/p/site-description/raw", "raw\n"),
    ("/p/site/page.html", "old\n"),
    ("/p/site/gone.html", "old\n")]

/-- Once this project is built, a check ends well and a second build does nothing. -/
theorem build_then_check_oldProject : ∃ s,
    parse (wordsInProject "build") = .ok buildProject ∧
    buildProject.command = some (.build false false false) ∧
    (∀ n ∈ oldProject.current, n.IsName) ∧
    Site.load oldProject (buildProject.projectRoot oldProject) = .ok s ∧
    (buildProject.run plain oldProject).ending.code? = some 0 ∧
    s.Undisturbed plain.tag oldProject ∧
    let built := (buildProject.run plain oldProject).disk
    (({ buildProject with command := some (.check false) } : CommandLine).run plain
      built).ending.code? = some 0 ∧
    (s.build (.write plain.tag) built).1 = built ∧
    (s.build (.write plain.tag) built).2.changed = [] := by
  have hparse : parse (wordsInProject "build") = .ok buildProject := rfl
  have hcurrent : ∀ n ∈ oldProject.current, n.IsName := by decide +kernel
  have hexit : (buildProject.run plain oldProject).ending.code? = some 0 := by decide +kernel
  have hsite : (Site.load oldProject (buildProject.projectRoot oldProject)).toOption.any fun s =>
      decide (s.Undisturbed plain.tag oldProject ∧
        (s.build (.write plain.tag) oldProject).2.Agrees oldProject) := by
    decide +kernel
  obtain ⟨s, hload, hs⟩ := exists_of_any_toOption hsite
  obtain ⟨hu, hagree⟩ := of_decide_eq_true hs
  obtain ⟨-, hcheck, hagain⟩ := build_then_check hparse rfl hcurrent hload hexit hu
  exact ⟨s, hparse, rfl, hcurrent, hload, hexit, hu, (hcheck false plain).2 hagree,
    hagain hagree plain.tag⟩

/-- The exit codes of a build and of the check that follows it. -/
def buildCheckCodes (d : Disk) : Option Nat × Option Nat :=
  let built := runWords (wordsInProject "build") plain d
  let checked := runWords (wordsInProject "check") plain built.disk
  (built.ending.code?, checked.ending.code?)

/-- A project in which two entries have one output. -/
def sharedOutput : Disk :=
  .ofFiles [
    ("/p/site-description/out.txt", "a > = > page\nb > = > page\n"),
    ("/p/site-description/a", "A"),
    ("/p/site-description/b", "B")]

/-- A project in which the output of an entry is the input of an earlier one. -/
def writtenInput : Disk :=
  .ofFiles [
    ("/p/site-description/out.txt", "b > = > page\na > = > ../site-description/b\n"),
    ("/p/site-description/a", "A"),
    ("/p/site-description/b", "B")]

/-- A project whose global variables stand in the output directory, which is pruned. -/
def globalsInOutput : Disk :=
  .ofFiles [
    ("/p/stencil.toml", "prune = true\nglobals = \"../site/globals.json\"\n"),
    ("/p/site-description/out.txt", "a > = > page\n"),
    ("/p/site-description/a", "A"),
    ("/p/site/globals.json", "\x7b\x7d")]

/-- In these projects a build ends well, but the check that follows does not. -/
theorem check_fails_after_build : buildCheckCodes sharedOutput = (some 0, some 1) ∧
    buildCheckCodes writtenInput = (some 0, some 1) ∧
    buildCheckCodes globalsInOutput = (some 0, some 2) := by
  refine ⟨?_, ?_, ?_⟩ <;> decide +kernel

end CommandLine

end Folio
