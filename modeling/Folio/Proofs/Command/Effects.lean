import Folio.Proofs.Command.Check
import Folio.Proofs.Site.Effects

/-!
# The effects of a command

A command that does not go on to watch loads its site, builds it in some mode
(`Command.mode`), and ends as the report says (`Command.ending`). Only a build that is no
dry run writes.

`CommandLine.run_effects` : a command whose site is not loaded does nothing; a command that
does not write leaves the disk as it is, and one that writes changes files at outputs of
entries that were built, makes directories above outputs, and removes files by pruning. It
fails exactly if some entry failed, or a warning is denied, or a check finds an artifact that
is not on the disk. The same holds of the disk that a crew leaves, in whatever order its
workers end.

The report names all files that were removed, unless pruning breaks off : then it names none
(`Site.pruned_unreported`). And a worker cleans up after a file that cannot have its new name,
but not after a write that has failed half way : just then its temporary file is left
(`Crew.spoiled_temporary`).
-/

namespace Folio

namespace Command

/-- Whether a command goes on to watch. -/
def Watches : Command → Prop
  | .build dryRun goOn _ => goOn ∧ ¬dryRun
  | .watch => True
  | .check _ => False
  | .list => False

/-- How a command builds its site, if it does. -/
def mode (tag : Text) : Command → BuildMode
  | .build dryRun _ _ => if dryRun then .dryRun else .write tag
  | .watch => .write tag
  | .check _ => .dryRun
  | .list => .dryRun

/-- A command that writes does so with the tag that it is given. -/
theorem tagOf_mode {c : Command} {tag : Text} (h : (c.mode tag).writes) :
    Crew.tagOf (c.mode tag) = tag := by
  unfold mode at h ⊢
  split at h
  · split at h
    · cases h
    · rename_i hdry
      rw [if_neg hdry]
      rfl
  · rfl
  · cases h
  · cases h

variable {c : Command} {s : Site} {d : Disk}

/-! ## What a command comes to -/

theorem build_dryRun_fst (s : Site) (d : Disk) : (s.build .dryRun d).1 = d := by
  rw [Site.build_eq, Site.renderAll_dryRun, Site.pruneAfter_dryRun]

/-- In a dry run an artifact is changed if the disk does not hold it. -/
theorem isChanged_dryRun_iff {a : Artifact} (ha : a ∈ (s.build .dryRun d).2.artifacts) :
    a.isChanged ↔ d.read a.output ≠ .ok a.contents := by
  rw [Site.build_eq, Site.renderAll_dryRun] at ha
  obtain ⟨outcome, houtcome, hartifact⟩ := List.mem_filterMap.1 ha
  obtain ⟨result, hresult, rfl⟩ := List.mem_map.1 houtcome
  obtain ⟨e, -, rfl⟩ := List.mem_map.1 hresult
  cases hrender : s.render d e with
  | error reason =>
    rw [hrender] at hartifact
    cases hartifact
  | ok b =>
    rw [hrender] at hartifact
    obtain rfl : b = a := Option.some.inj hartifact
    obtain ⟨-, -, houtput, hprevious⟩ := Site.render_eq_ok_iff.1 hrender
    rw [Site.isChanged_iff, hprevious, ← houtput, Ne, toOption_eq_some_iff]

/-- A command that does not go on to watch leaves the disk of its build, and ends as the
report of that says. -/
theorem runOn_eq (hends : ¬c.Watches) (style : MessageStyle) (tag : Text) (verbose : Bool)
    (s : Site) (d : Disk) :
    (runOn style tag verbose s d c).disk = (s.build (c.mode tag) d).1 ∧
      (runOn style tag verbose s d c).ending = c.ending (s.build (c.mode tag) d).2 := by
  cases c with
  | build dryRun goOn deny =>
    have hgoOn : (goOn && !dryRun) = false := by
      cases goOn <;> cases dryRun <;> first | rfl | exact absurd ⟨rfl, Bool.false_ne_true⟩ hends
    rw [runOn, hgoOn]
    exact ⟨rfl, rfl⟩
  | watch => exact absurd trivial hends
  | check diff => exact checkSite_eq
  | list => exact ⟨(build_dryRun_fst s d).symm, rfl⟩

end Command

namespace CommandLine

variable {line : CommandLine} {c : Command} {s : Site} {d : Disk} {around : Surroundings}

/-- What a command does that does not go on to watch, for any tree and any schedule of its
workers. If the site is not loaded the command ends with the code 2 and does nothing.
Otherwise a command that does not write leaves the disk alone, and one that writes has no
other effects than its report tells. The report misses none of the files that are removed
exactly if pruning does not break off, and no temporary file is left when the entries are
done exactly if no write has failed half way. The code is 1 if the command counts as failed,
and 0 if not. -/
theorem run_effects {words : List Text} (hparse : parse words = .ok line)
    (hcommand : line.command = some c) (hends : ¬c.Watches) (around : Surroundings) (d : Disk)
    (hnamed : d.WellNamed) :
    let run := line.run around d
    (∀ reason, Site.load d (line.projectRoot d) = .error reason →
      run.ending.code? = some 2 ∧ run.disk = d) ∧
    ∀ s, Site.load d (line.projectRoot d) = .ok s →
      let mode := c.mode around.tag
      let rendered := (s.renderAll mode d s.manifest.entries).1
      let report := (s.build mode d).2
      (¬mode.writes → run.disk = d ∧
        ∀ a ∈ report.artifacts, a.isChanged ↔ d.read a.output ≠ .ok a.contents) ∧
      (mode.writes → s.Fresh (fun _ => around.tag) d →
        Effects s d run.disk report (fun _ => False) ∧
        (Reported d run.disk report.pruned ↔ ¬(s.config.prune ∧ s.BreaksOff rendered)) ∧
        ∀ e ∈ s.manifest.entries, ∀ x,
          run.disk.node? (d.place (Writer.temporaryFor (s.outputPath e) around.tag)) ≠
            some (.file x)) ∧
      run.ending = c.ending report ∧
      (∀ r, ((c.ending r).code? = some 1 ↔ c.Fails r) ∧
        ((c.ending r).code? = some 0 ↔ ¬c.Fails r)) ∧
      ∀ available events crew crew' r,
        Crew.Run s mode (Crew.Tidy s mode d) (Crew.start (s.config.jobBound available) d) events
          crew → Crew.Step s mode crew .report crew' → crew'.report = some r →
        (¬mode.writes → crew'.disk = d) ∧ Effects s d crew'.disk r (Crew.Spoilt d events) ∧
        (Reported crew.disk crew'.disk r.pruned ↔
          ¬(mode.writes ∧ s.config.prune ∧ s.BreaksOff crew.disk)) ∧
        ((∀ task tag a, .render task tag (.ok a) ∈ events → mode.writes → a.isChanged → ∀ x,
            crew.disk.node? (d.place (Writer.temporaryFor a.output tag)) ≠ some (.file x)) ↔
          ∀ task, .spoil task ∉ events) := by
  intro run
  refine ⟨fun reason => run_of_load_eq_error line around d hcommand, fun s hload => ?_⟩
  intro mode rendered report
  have hroot : s.root.isAbsolute := isAbsolute_root (path_of_parse hparse) hload
  obtain ⟨hdisk, hending⟩ :=
    Command.runOn_eq hends (line.style around d) around.tag line.verbose s d
  rw [← run_of_load hcommand hload] at hdisk hending
  have hrun : run.disk = (s.build mode d).1 := hdisk
  have hdry : ¬mode.writes → mode = .dryRun := by
    intro hwrites
    cases hmode : mode with
    | dryRun => rfl
    | write tag => exact absurd (congrArg BuildMode.writes hmode) hwrites
  refine ⟨fun hwrites => ?_, fun hwrites hfresh => ?_, hending, c.code_ending, ?_⟩
  · have hmode := hdry hwrites
    refine ⟨?_, fun a ha => ?_⟩
    · rw [hrun, hmode, Command.build_dryRun_fst]
    · change a ∈ (s.build mode d).2.artifacts at ha
      rw [hmode] at ha
      exact Command.isChanged_dryRun_iff ha
  · have htag : Crew.tagOf mode = around.tag := Command.tagOf_mode hwrites
    have hfresh' : mode.writes → s.Fresh (fun _ => Crew.tagOf mode) d := fun _ => by rwa [htag]
    obtain ⟨heffects, hreported⟩ := Site.effects_build hroot hnamed hfresh'
    rw [← hrun] at heffects hreported
    refine ⟨heffects, ?_, fun e he => heffects.free_of_own (Crew.own_of_fresh hfresh he) id⟩
    rw [hreported, and_iff_right hwrites]
  · intro available events crew crew' r hrun hstep hr
    refine ⟨fun hwrites => ?_, hrun.effects hstep hr hroot hnamed, hstep.reported_iff hr,
      hrun.free_iff hstep⟩
    rw [hdry hwrites] at hrun hstep
    obtain ⟨hbefore, hbusy⟩ := hrun.disk_of_dryRun
    exact (hstep.disk_of_dryRun hbusy).1.trans hbefore

/-- A project with a page whose directory is missing, an entry that has no input, and an old
page that no entry gives any more. -/
def halfBuilt : Disk :=
  .ofFiles [
    ("/p/stencil.toml", "prune = true\n"),
    ("/p/site-description/out.txt", "page > = > new/page.html\nlost > = > lost.html\n"),
    ("/p/site-description/page", "text\n"),
    ("/p/site/lost.html", "old\n"),
    ("/p/site/old.html", "old\n")]

/-- A build of this project makes the page and removes the old one, and fails because of the
other entry. -/
theorem run_effects_halfBuilt : ∃ s,
    parse (wordsInProject "build") = .ok buildProject ∧
    buildProject.command = some (.build false false false) ∧
    ¬(Command.build false false false).Watches ∧
    halfBuilt.WellNamed ∧
    Site.load halfBuilt (buildProject.projectRoot halfBuilt) = .ok s ∧
    s.Fresh (fun _ => plain.tag) halfBuilt ∧
    let run := buildProject.run plain halfBuilt
    let report := (s.build (.write plain.tag) halfBuilt).2
    Effects s halfBuilt run.disk report (fun _ => False) ∧
    Reported halfBuilt run.disk report.pruned ∧ run.ending.code? = some 1 ∧
    report.artifacts.length = 1 ∧ report.pruned.length = 1 ∧
    run.disk.isFile (.ofString "/p/site/new/page.html") ∧
    run.disk.isFile (.ofString "/p/site/lost.html") ∧
    ¬run.disk.isFile (.ofString "/p/site/old.html") := by
  have hparse : parse (wordsInProject "build") = .ok buildProject := rfl
  have hends : ¬(Command.build false false false).Watches := fun h => Bool.false_ne_true h.1
  have hnamed : halfBuilt.WellNamed := by decide +kernel
  have hsite : (Site.load halfBuilt (buildProject.projectRoot halfBuilt)).toOption.any fun s =>
      decide (s.Fresh (fun _ => plain.tag) halfBuilt ∧
        s.Walkable (s.renderAll (.write plain.tag) halfBuilt s.manifest.entries).1 ∧
        (s.build (.write plain.tag) halfBuilt).2.artifacts.length = 1 ∧
        (s.build (.write plain.tag) halfBuilt).2.failures ≠ [] ∧
        (s.build (.write plain.tag) halfBuilt).2.pruned.length = 1) := by
    decide +kernel
  have hrun : let run := buildProject.run plain halfBuilt
      run.disk.isFile (.ofString "/p/site/new/page.html") ∧
      run.disk.isFile (.ofString "/p/site/lost.html") ∧
      ¬run.disk.isFile (.ofString "/p/site/old.html") := by
    decide +kernel
  obtain ⟨s, hload, hs⟩ := exists_of_any_toOption hsite
  obtain ⟨hfresh, hw, hartifacts, hfailures, hpruned⟩ := of_decide_eq_true hs
  obtain ⟨-, hloaded⟩ := run_effects hparse rfl hends plain halfBuilt hnamed
  obtain ⟨-, hwrites, hending, hcode, -⟩ := hloaded s hload
  obtain ⟨heffects, hreported, -⟩ := hwrites rfl hfresh
  refine ⟨s, hparse, rfl, hends, hnamed, hload, hfresh, heffects,
    hreported.2 fun h => hw.not_breaksOff h.2, ?_, hartifacts, hpruned, hrun⟩
  rw [hending]
  exact (hcode _).1.2 (Or.inl hfailures)

end CommandLine

end Folio
