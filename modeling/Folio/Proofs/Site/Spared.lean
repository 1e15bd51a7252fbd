import Folio.Proofs.Site.Effects

/-!
# What pruning spares

Pruning does not look at what a build reads. It spares the files that are not exposed
(`Site.Exposes`), and may remove any other, be it a source : a configuration that stands in
the output directory is removed (`Site.pruned_configuration`).

`Site.prune_spares_iff` : whatever pruning removes is exposed, and if a walk misses no file
and each of them can be removed (`Site.Walkable`) it removes all that is exposed. So it is
with a build that prunes, which looks at what is exposed when all entries are done, and with
every tidy run of a crew.
-/

namespace Folio

namespace Crew

variable {s : Site} {mode : BuildMode} {bound : Nat} {events : List Event} {c c' : Crew}
  {d : Disk} {p : Path}

/-- A tidy run keeps every file until its report. -/
theorem Run.isFile (h : Run s mode (Tidy s mode d) (start bound d) events c)
    (hreport : c.report = none) (hp : d.isFile p) : c.disk.isFile p := by
  obtain ⟨left, horderly⟩ := h.exists_orderly hreport
  have htraces := horderly.traces
  obtain ⟨x, hx⟩ := Disk.isFile_iff.1 hp
  obtain ⟨hfind, hnode⟩ := Disk.read_eq_ok_iff.1 hx
  obtain ⟨y, hy⟩ := htraces.stays _ x hnode
  rw [← Disk.place_congr htraces.current] at hfind hy
  refine Disk.isFile_iff.2 ⟨y, Disk.read_eq_ok_iff.2 ⟨?_, hy⟩⟩
  exact Disk.find?_of_directories hfind htraces.current htraces.kept (by rw [hy]; rfl)

/-- The report of a tidy run spares a file that was there at first, unless it prunes and
removes it. -/
theorem Run.isFile_report_iff (h : Run s mode (Tidy s mode d) (start bound d) events c)
    (hstep : Step s mode c .report c') (hp : d.isFile p) : c'.disk.isFile p ↔
      ¬(mode.writes ∧ s.config.prune ∧ s.Removes c.disk (d.place p)) := by
  obtain ⟨-, -, hnone, hdisk, -⟩ := hstep.eq_report
  obtain ⟨left, horderly⟩ := h.exists_orderly hnone
  have hp' := h.isFile hnone hp
  have hplace : c.disk.place p = d.place p := Disk.place_congr horderly.traces.current p
  rw [hdisk]
  cases mode with
  | dryRun =>
    rw [Site.pruneAfter_dryRun]
    exact iff_of_true hp' fun h => nomatch h.1
  | write tag =>
    have hwrites : (BuildMode.write tag).writes = true := rfl
    rw [Site.pruneAfter_write]
    split
    · rename_i hprune
      rw [Site.isFile_prune_iff hp', hplace]
      simp only [hwrites, hprune, true_and]
    · rename_i hprune
      exact iff_of_true hp' fun h => hprune h.2.1

end Crew

namespace Site

variable {s : Site} {d : Disk}

/-- Pruning removes no other files than exposed ones, and all of these if it can : a file is
spared that lies outside the output directory or at the output of an entry, and so are all
files if the root or the description directory lies in the output directory. A build that
prunes, by one worker or by a crew, spares what is not exposed when all entries are done.
With an absolute root that is a matter of places. What stands in the root or the description
directory itself is never exposed. -/
theorem prune_spares_iff (s : Site) :
    (∀ d p c, d.read p = .ok c →
      (¬s.Exposes d (d.place p) → (s.prune d).1.read p = .ok c) ∧
      (s.Walkable d → ((s.prune d).1.read p = .ok c ↔ ¬s.Exposes d (d.place p)))) ∧
    (∀ d tag p, d.isFile p →
      (∀ e ∈ s.manifest.entries,
        d.place (Writer.temporaryFor (s.outputPath e) tag) ≠ d.place p) →
      let rendered := (s.renderAll (.write tag) d s.manifest.entries).1
      let built := (s.build (.write tag) d).1
      (¬(s.config.prune ∧ s.Exposes rendered (d.place p)) → built.isFile p) ∧
      (s.Walkable rendered →
        (built.isFile p ↔ ¬(s.config.prune ∧ s.Exposes rendered (d.place p))))) ∧
    (∀ mode bound d events crew crew' p,
      Crew.Run s mode (Crew.Tidy s mode d) (Crew.start bound d) events crew →
      Crew.Step s mode crew .report crew' → d.isFile p →
      (¬(mode.writes ∧ s.config.prune ∧ s.Exposes crew.disk (d.place p)) →
        crew'.disk.isFile p) ∧
      (s.Walkable crew.disk → (crew'.disk.isFile p ↔
        ¬(mode.writes ∧ s.config.prune ∧ s.Exposes crew.disk (d.place p))))) ∧
    (s.root.isAbsolute → ∀ (d : Disk) (p : Path), p.isAbsolute →
      (s.Exposes d (d.place p) ↔ d.isDirectory s.outputDir ∧
        (∀ dir ∈ s.sourceDirs, ¬d.place s.outputDir <+: d.place dir) ∧
        d.place s.outputDir <+: d.place p ∧ d.place p ≠ d.place s.outputDir ∧
        ∀ e ∈ s.manifest.entries, d.place (s.outputPath e) ≠ d.place p)) ∧
    ∀ dir ∈ s.sourceDirs, dir.text ≠ [] → ∀ n : Text, n.IsName → ∀ d : Disk,
      d.isFile (dir.join ⟨n⟩) → ¬s.Exposes d (d.place (dir.join ⟨n⟩)) := by
  refine ⟨fun d p c hp => ?_, fun d tag p hp htemporary => ?_,
    fun mode bound d events crew crew' p hrun hstep hp => ?_, fun hroot d p hp => ?_, ?_⟩
  · obtain ⟨-, hnode⟩ := Disk.read_eq_ok_iff.1 hp
    rw [read_prune_iff hp]
    refine ⟨fun h hremoves => h (exposes_of_removes hremoves), fun hw => ?_⟩
    rw [removes_iff_exposes hw hnode]
  · intro rendered built
    have hframe := frame_renderAll s tag d s.manifest.entries
    have hrendered : rendered.isFile p :=
      hframe.isFile hp fun ⟨e, he, heq⟩ => htemporary e he heq.symm
    obtain ⟨c, hc⟩ := Disk.isFile_iff.1 hrendered
    obtain ⟨-, hnode⟩ := Disk.read_eq_ok_iff.1 hc
    rw [Disk.place_congr hframe.current] at hnode
    rw [show built.isFile p = true ↔ _ from isFile_build_iff hp htemporary]
    refine ⟨fun h hremoves => h (hremoves.imp_right exposes_of_removes), fun hw => ?_⟩
    rw [removes_iff_exposes hw hnode]
  · obtain ⟨-, -, hnone, -⟩ := hstep.eq_report
    obtain ⟨left, horderly⟩ := hrun.exists_orderly hnone
    obtain ⟨c, hc⟩ := Disk.isFile_iff.1 (hrun.isFile hnone hp)
    obtain ⟨-, hnode⟩ := Disk.read_eq_ok_iff.1 hc
    rw [Disk.place_congr horderly.traces.current] at hnode
    rw [hrun.isFile_report_iff hstep hp]
    refine ⟨fun h hremoves => h (hremoves.imp_right (And.imp_right exposes_of_removes)),
      fun hw => ?_⟩
    rw [removes_iff_exposes hw hnode]
  · exact exposes_iff_of_isAbsolute hroot hp
  · exact fun dir hdir hne n hn d hfile => not_exposes_of_sourceDir hdir hne hn hfile

/-- A project whose configuration stands in its output directory. -/
def configInOutput : Disk :=
  .ofFiles [
    ("/p/.config/stencil.toml", "output = \".config\"\nprune = true\n"),
    ("/p/site-description/out.txt", "page > = > page\n"),
    ("/p/site-description/page", "text\n")]

/-- Of this project the configuration is exposed, and the manifest is not. -/
theorem prune_spares_iff_configInOutput : ∃ s, load configInOutput (.ofString "/p") = .ok s ∧
    s.Walkable configInOutput ∧
    s.Exposes configInOutput (configInOutput.place (.ofString "/p/.config/stencil.toml")) ∧
    ¬s.Exposes configInOutput
      (configInOutput.place (.ofString "/p/site-description/out.txt")) := by
  let config := Path.ofString "/p/.config/stencil.toml"
  let manifest := Path.ofString "/p/site-description/out.txt"
  have hpruned : (load configInOutput (.ofString "/p")).toOption.any fun s =>
      decide (s.Walkable configInOutput ∧ ¬(s.prune configInOutput).1.isFile config ∧
        ((s.prune configInOutput).1.read manifest).toOption =
          (configInOutput.read manifest).toOption) := by
    decide +kernel
  have hconfig : configInOutput.isFile config := by decide +kernel
  have hmanifest : configInOutput.isFile manifest := by decide +kernel
  obtain ⟨s, hload, hs⟩ := exists_of_any_toOption hpruned
  obtain ⟨hw, hgone, hkept⟩ := of_decide_eq_true hs
  have hspares := (prune_spares_iff s).1 configInOutput
  refine ⟨s, hload, hw, ?_, ?_⟩
  · obtain ⟨c, hc⟩ := Disk.isFile_iff.1 hconfig
    refine Classical.byContradiction fun hspared => ?_
    have hread := (hspares config c hc).1 hspared
    exact hgone (Disk.isFile_iff.2 ⟨c, hread⟩)
  · obtain ⟨c, hc⟩ := Disk.isFile_iff.1 hmanifest
    refine ((hspares manifest c hc).2 hw).1 ?_
    rw [hc] at hkept
    exact toOption_eq_some_iff.1 hkept

/-- Pruning removes the configuration of this project, and so does building it. -/
theorem pruned_configuration : ∃ s, load configInOutput (.ofString "/p") = .ok s ∧
    Config.find? configInOutput s.root = some (.ofString "/p/.config/stencil.toml") ∧
    ¬(s.prune configInOutput).1.isFile (.ofString "/p/.config/stencil.toml") ∧
    s.config.prune ∧
    ¬(s.build (.write []) configInOutput).1.isFile (.ofString "/p/.config/stencil.toml") := by
  have hpruned : (load configInOutput (.ofString "/p")).toOption.any fun s =>
      decide (Config.find? configInOutput s.root = some (.ofString "/p/.config/stencil.toml") ∧
        ¬(s.prune configInOutput).1.isFile (.ofString "/p/.config/stencil.toml") ∧
        s.config.prune ∧
        ¬(s.build (.write []) configInOutput).1.isFile (.ofString "/p/.config/stencil.toml")) := by
    decide +kernel
  obtain ⟨s, hload, hs⟩ := exists_of_any_toOption hpruned
  exact ⟨s, hload, of_decide_eq_true hs⟩

end Site

end Folio
