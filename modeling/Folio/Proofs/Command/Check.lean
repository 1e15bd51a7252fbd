import Folio.Proofs.Command.FixedPoint

/-!
# What a check tells about a build

A check renders the entries as a build does, and compares them with the outputs. It does
not look for files that no entry gives. `CommandLine.check_iff_idle` : if pruning would
remove no file, a check ends well exactly if a build would end well and leave the whole tree
alone, and so it is with every run of a crew (`CommandLine.check_iff_still`). Without that a
check says just that the entries are built and none of them is written; where `prune` is set,
the build that follows may still remove files (`CommandLine.check_misses_leftover`).
-/

namespace Folio

namespace CommandLine

variable {line : CommandLine} {s : Site}

/-- A build that allows warnings ends well exactly if it has no failures. -/
theorem buildSite_code {style : MessageStyle} {tag : Text} {verbose : Bool} {d : Disk} :
    (Command.buildSite style tag verbose false false s d).ending.code? = some 0 ↔
      (s.build (.write tag) d).2.isOk := by
  refine ⟨isOk_of_buildSite, fun hok => ?_⟩
  rw [Command.buildSite_ending false, (Command.code_ending _ _).2]
  rintro (hfailed | ⟨hdeny, -⟩)
  · exact hfailed (Command.isOk_iff.1 hok)
  · cases hdeny

/-- A check ends well exactly if all entries are up to date. -/
theorem check_code {around : Surroundings} {d : Disk} {diff : Bool}
    (hload : Site.load d (line.projectRoot d) = .ok s) :
    (({ line with command := some (.check diff) } : CommandLine).run around d).ending.code? =
      some 0 ↔ ∀ e ∈ s.manifest.entries, s.UpToDate d e := by
  rw [run_check hload, checkSite_code, Site.dryRun_clean_iff]

/-- If the site is not loaded, neither a check nor a build does anything. Otherwise a check
ends well, and pruning would remove no file, exactly if a build ends well and leaves the
tree alone all the time. A check that ends well says by itself that a build ends well and
does no more than prune. What pruning removes is exposed, and if it can remove everything
then all that is exposed is removed. -/
theorem check_iff_idle (hcommand : line.command = some (.build false false false))
    (around : Surroundings) (d : Disk) (diff : Bool) :
    let check := ({ line with command := some (.check diff) } : CommandLine).run around d
    let build := line.run around d
    (∀ reason, Site.load d (line.projectRoot d) = .error reason →
      check.ending.code? = some 2 ∧ build.ending.code? = some 2 ∧ build.disk = d) ∧
    ∀ s, Site.load d (line.projectRoot d) = .ok s →
      (check.ending.code? = some 0 ∧ (s.config.prune → ∀ l, ¬s.Removes d l) ↔
        build.ending.code? = some 0 ∧ s.Idle around.tag d) ∧
      (check.ending.code? = some 0 → build.ending.code? = some 0 ∧
        build.disk = if s.config.prune then (s.prune d).1 else d) ∧
      (∀ l, s.Removes d l → s.Exposes d l ∧ ∃ x, d.node? l = some (.file x)) ∧
      (s.Walkable d → ∀ l x, d.node? l = some (.file x) → s.Exposes d l → s.Removes d l) := by
  intro check build
  refine ⟨fun reason hload => ?_, fun s hload => ?_⟩
  · obtain ⟨hcode, hdisk⟩ := run_of_load_eq_error line around d hcommand hload
    refine ⟨?_, hcode, hdisk⟩
    exact (run_of_load_eq_error { line with command := some (.check diff) } around d rfl hload).1
  · have hcheck : check.ending.code? = some 0 ↔ ∀ e ∈ s.manifest.entries, s.UpToDate d e :=
      check_code hload
    have hbuild : build.ending.code? = some 0 ↔ (s.build (.write around.tag) d).2.isOk := by
      rw [show build = _ from run_build hcommand hload, buildSite_code]
    rw [hcheck, hbuild]
    refine ⟨Site.build_idle_iff.symm, fun huptodate => ⟨?_, ?_⟩,
      fun l h => ⟨Site.exposes_of_removes h, h.1⟩,
      fun hw l x hx => (Site.removes_iff_exposes hw hx).2⟩
    · exact Site.isOk_build_of_upToDate huptodate around.tag
    · exact (run_disk hcommand hload).trans (Site.build_of_upToDate huptodate around.tag)

/-- The same of any run of a crew that writes, if its workers render what is there and none of
them dies : the run goes well and leaves the tree alone all the time exactly if a check ends
well and pruning would remove no file. After a check that ends well the run does no more than
prune. -/
theorem check_iff_still {around : Surroundings} {d : Disk} {diff : Bool}
    (hload : Site.load d (line.projectRoot d) = .ok s) {mode : BuildMode} {bound : Nat}
    {events : List Crew.Event} {crew crew' : Crew} {r : Report} (hwrites : mode.writes)
    (hrun : Crew.Run s mode (Crew.Reads s) (Crew.start bound d) events crew)
    (hlose : ∀ task, .lose task ∉ events) (hstep : Crew.Step s mode crew .report crew')
    (hr : crew'.report = some r) :
    let check := ({ line with command := some (.check diff) } : CommandLine).run around d
    (check.ending.code? = some 0 ∧ (s.config.prune → ∀ l, ¬s.Removes d l) ↔
      r.isOk ∧ Crew.Still s mode bound d events crew crew') ∧
    (check.ending.code? = some 0 →
      r.isOk ∧ crew.disk = d ∧ crew'.disk = (s.pruneAfter mode d).1) := by
  intro check
  have hcheck : check.ending.code? = some 0 ↔ ∀ e ∈ s.manifest.entries, s.UpToDate d e :=
    check_code hload
  rw [hcheck]
  refine ⟨(hrun.still_iff hwrites hlose hstep hr).symm, fun huptodate => ?_⟩
  exact hrun.report_of_upToDate huptodate hlose hstep hr

/-- A project with a page that is up to date and, if `old` says so, a page that no entry
gives any more. -/
def publishedPage (old : Bool) : Disk :=
  .ofFiles ([
    ("/p/stencil.toml", "prune = true\n"),
    ("/p/site-description/out.txt", "page > = > page.html\n"),
    ("/p/site-description/page", "text\n"),
    ("/p/site/page.html", "text\n")] ++
    if old then [("/p/site/old.html", "text\n")] else [])

/-- Without the old page, a check of this project ends well and a build is idle. -/
theorem check_iff_idle_publishedPage : ∃ s,
    parse (wordsInProject "build") = .ok buildProject ∧
    buildProject.command = some (.build false false false) ∧
    Site.load (publishedPage false) (buildProject.projectRoot (publishedPage false)) = .ok s ∧
    s.config.prune ∧
    (({ buildProject with command := some (.check true) } : CommandLine).run plain
      (publishedPage false)).ending.code? = some 0 ∧
    (buildProject.run plain (publishedPage false)).ending.code? = some 0 ∧
    s.Idle plain.tag (publishedPage false) := by
  have hparse : parse (wordsInProject "build") = .ok buildProject := rfl
  have hcheck : (({ buildProject with command := some (.check true) } : CommandLine).run plain
      (publishedPage false)).ending.code? = some 0 := by
    decide +kernel
  have hsite : (Site.load (publishedPage false)
      (buildProject.projectRoot (publishedPage false))).toOption.any fun s =>
        decide (s.config.prune ∧
          (s.prune (publishedPage false)).1.nodes = (publishedPage false).nodes) := by
    decide +kernel
  obtain ⟨s, hload, hs⟩ := exists_of_any_toOption hsite
  obtain ⟨hprune, hnodes⟩ := of_decide_eq_true hs
  have hsame : Disk.SameTree (publishedPage false) (s.prune (publishedPage false)).1 :=
    ⟨(Site.frame_prune s _).current, fun l => by rw [Disk.node?, Disk.node?, hnodes]⟩
  obtain ⟨-, hiff⟩ := @check_iff_idle buildProject rfl plain (publishedPage false) true
  have hidle := (hiff s hload).1.1 ⟨hcheck, fun _ => Site.sameTree_prune_iff.1 hsame⟩
  exact ⟨s, hparse, rfl, hload, hprune, hcheck, hidle⟩

/-- With the old page, a check of this project ends well, and a build then removes that
page. -/
theorem check_misses_leftover :
    (runWords (wordsInProject "check") plain (publishedPage true)).ending.code? = some 0 ∧
    (runWords (wordsInProject "build") plain (publishedPage true)).ending.code? = some 0 ∧
    (publishedPage true).isFile (.ofString "/p/site/old.html") ∧
    ¬(runWords (wordsInProject "build") plain (publishedPage true)).disk.isFile
      (.ofString "/p/site/old.html") := by
  decide +kernel

end CommandLine

end Folio
