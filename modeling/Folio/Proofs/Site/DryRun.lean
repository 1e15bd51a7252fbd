import Folio.Proofs.Disk.Replace
import Folio.Proofs.Site.FixedPoint

/-!
# Dry runs

A dry run renders each entry on the disk as it is, and so it knows what a run that writes
would answer, but for an output that cannot be written (`Site.dryRun_predicts_write`).

An entry is up to date if it can be rendered and its output holds just that
(`Site.UpToDate`), and then it is not written either.

`Site.build_idle_iff` : a build goes well and leaves the tree alone all the time exactly
if all entries are up to date and pruning removes nothing. A dry run tells the first
of these (`Site.dryRun_clean_iff`), and says nothing about the second.
-/

namespace Folio

namespace Report

/-- A report is without failures if all results are artifacts. -/
theorem isOk_ofOutcomes_iff {m : Manifest} {results : List (Except SiteError Artifact)}
    {pruned : List Path} (hlength : results.length = m.entries.length) :
    (ofOutcomes m (results.map some) pruned).isOk ↔
      ∃ artifacts : List Artifact, results = artifacts.map .ok := by
  constructor
  · exact fun h => ⟨_, results_of_isOk hlength h⟩
  · rintro ⟨artifacts, rfl⟩
    rw [ofOutcomes_ok]
    rfl

end Report

namespace Site

variable {s : Site} {d d' : Disk} {e : Entry} {a : Artifact} {tag : Text} {entries : List Entry}

/-! ## One entry -/

/-- Whether an entry can be rendered and its output holds what it gives. -/
def UpToDate (s : Site) (d : Disk) (e : Entry) : Prop :=
  ∃ a, s.render d e = .ok a ∧ ¬a.isChanged

theorem renderEntry_dryRun (s : Site) (d : Disk) (e : Entry) :
    s.renderEntry d .dryRun e = (d, s.render d e) := by
  unfold renderEntry
  cases s.render d e <;> rfl

/-- An entry that cannot be rendered is not written. -/
theorem renderEntry_of_error {reason : SiteError} (h : s.render d e = .error reason)
    (tag : Text) : s.renderEntry d (.write tag) e = (d, .error reason) := by
  unfold renderEntry
  rw [h]

/-- An entry that is up to date is not written. -/
theorem UpToDate.renderEntry (h : s.UpToDate d e) (tag : Text) :
    s.renderEntry d (.write tag) e = (d, s.render d e) := by
  obtain ⟨a, hrender, hchanged⟩ := h
  unfold Site.renderEntry
  rw [hrender]
  exact if_neg hchanged

/-- An entry that is changed replaces its output. -/
theorem renderEntry_of_isChanged (h : s.render d e = .ok a) (hchanged : a.isChanged)
    (tag : Text) : s.renderEntry d (.write tag) e =
      ((d.replaceFile (s.outputPath e) tag a.contents).1,
        ((d.replaceFile (s.outputPath e) tag a.contents).2.mapError
          (.unwritable (s.outputPath e))).map fun _ => a) := by
  unfold renderEntry
  rw [h]
  dsimp only
  rw [if_pos hchanged, writeOutput, (render_eq_ok_iff.1 h).2.2.1]

/-- What a dry run of an entry predicts of one that writes. After an error, and for an
artifact that is not changed, the answer is the same and the disk is left alone. An
artifact that is changed is the same again and is written, or its output cannot be
written, and then no file is harmed. (The tag of a temporary file is part of its name.) -/
theorem dryRun_predicts_write (s : Site) (d : Disk) (e : Entry) (tag : Text) :
    let dry := s.renderEntry d .dryRun e
    let written := s.renderEntry d (.write tag) e
    let temporary := Writer.temporaryFor (s.outputPath e) tag
    dry.1 = d ∧
    ('/' ∉ tag → d.place temporary ≠ d.place (s.outputPath e)) ∧
    (∀ reason, dry.2 = .error reason → written = (d, .error reason)) ∧
    (∀ a, dry.2 = .ok a → ¬a.isChanged → written = (d, .ok a)) ∧
    ∀ a, dry.2 = .ok a → a.isChanged →
      written.2 = .ok a ∧ Disk.Replaced (s.outputPath e) temporary a.contents d written.1 ∨
      (∃ reason, written.2 = .error (.unwritable (s.outputPath e) reason)) ∧
        Disk.Unreplaced (s.outputPath e) temporary d written.1 := by
  intro dry written temporary
  rw [show dry = (d, s.render d e) from renderEntry_dryRun s d e]
  refine ⟨rfl, Disk.place_temporaryFor_ne d _, fun reason hreason => ?_,
    fun a ha hunchanged => ?_, fun a ha hchanged => ?_⟩
  · exact renderEntry_of_error hreason tag
  · exact (UpToDate.renderEntry ⟨a, ha, hunchanged⟩ tag).trans (congrArg (Prod.mk d) ha)
  · rw [show written = _ from renderEntry_of_isChanged ha hchanged tag]
    cases hreplace : d.replaceFile (s.outputPath e) tag a.contents with
    | mk d' result =>
      cases result with
      | ok _ => exact Or.inl ⟨rfl, Disk.replaced_replaceFile hreplace⟩
      | error reason => exact Or.inr ⟨⟨reason, rfl⟩, Disk.unreplaced_replaceFile hreplace⟩

/-! ## All entries -/

theorem renderAll_dryRun (s : Site) (d : Disk) (entries : List Entry) :
    s.renderAll .dryRun d entries = (d, entries.map (s.render d)) := by
  induction entries with
  | nil => rfl
  | cons e rest ih => simp only [renderAll, renderEntry_dryRun, ih, List.map_cons]

theorem renderAll_of_upToDate (h : ∀ e ∈ entries, s.UpToDate d e) (tag : Text) :
    s.renderAll (.write tag) d entries = (d, entries.map (s.render d)) := by
  induction entries with
  | nil => rfl
  | cons e rest ih =>
    obtain ⟨hfirst, hrest⟩ := List.forall_mem_cons.1 h
    simp only [renderAll, hfirst.renderEntry tag, ih hrest, List.map_cons]

/-- An entry that is built without any change of the tree was up to date. -/
theorem upToDate_of_sameTree (h : s.renderEntry d (.write tag) e = (d', .ok a))
    (hsame : Disk.SameTree d d') : s.UpToDate d e := by
  obtain ⟨hrender, hread⟩ := renderEntry_eq_ok h
  obtain ⟨-, -, houtput, hprevious⟩ := render_eq_ok_iff.1 hrender
  refine ⟨a, hrender, fun hchanged => isChanged_iff.1 hchanged ?_⟩
  rw [hprevious, ← houtput, ← hsame.read_eq, hread]
  rfl

/-- Entries that are built without any change of the tree at any time were up to date. -/
theorem upToDate_of_renderAll {artifacts : List Artifact}
    (h : (s.renderAll (.write tag) d entries).2 = artifacts.map .ok)
    (hsame : ∀ n, Disk.SameTree d (s.renderAll (.write tag) d (entries.take n)).1) :
    ∀ e ∈ entries, s.UpToDate d e := by
  induction entries generalizing artifacts with
  | nil => exact nofun
  | cons e rest ih =>
    obtain ⟨d₁, a, others, rfl, hfirst, hrest, -⟩ := exists_of_renderAll_cons h
    have hone := hsame 1
    simp only [List.take_succ_cons, List.take_zero, renderAll, hfirst] at hone
    have huptodate := upToDate_of_sameTree hfirst hone
    -- So the first entry has left the very same disk, and the others go on from there.
    obtain rfl : d = d₁ := (Prod.mk.inj ((huptodate.renderEntry tag).symm.trans hfirst)).1
    refine List.forall_mem_cons.2 ⟨huptodate, ih hrest fun n => ?_⟩
    have hnext := hsame (n + 1)
    simpa only [List.take_succ_cons, renderAll, hfirst] using hnext

theorem exists_artifacts_of_upToDate (h : ∀ e ∈ entries, s.UpToDate d e) :
    ∃ artifacts : List Artifact, entries.map (s.render d) = artifacts.map .ok ∧
      ∀ a ∈ artifacts, ¬a.isChanged := by
  induction entries with
  | nil => exact ⟨[], rfl, nofun⟩
  | cons e rest ih =>
    obtain ⟨⟨a, hrender, hchanged⟩, hrest⟩ := List.forall_mem_cons.1 h
    obtain ⟨artifacts, hartifacts, hunchanged⟩ := ih hrest
    refine ⟨a :: artifacts, ?_, List.forall_mem_cons.2 ⟨hchanged, hunchanged⟩⟩
    rw [List.map_cons, List.map_cons, hrender, hartifacts]

/-! ## Whole builds -/

/-- A dry run reports neither changes nor failures exactly if all entries are up to
date. -/
theorem dryRun_clean_iff :
    (s.build .dryRun d).2.changed = [] ∧ (s.build .dryRun d).2.isOk ↔
      ∀ e ∈ s.manifest.entries, s.UpToDate d e := by
  rw [build_eq, renderAll_dryRun]
  dsimp only
  rw [Report.isOk_ofOutcomes_iff (List.length_map _)]
  constructor
  · rintro ⟨hchanged, artifacts, hartifacts⟩ e he
    rw [hartifacts, Report.ofOutcomes_ok] at hchanged
    have hrender : s.render d e ∈ artifacts.map Except.ok := by
      rw [← hartifacts]
      exact List.mem_map_of_mem he
    obtain ⟨a, ha, heq⟩ := List.mem_map.1 hrender
    exact ⟨a, heq.symm, List.filter_eq_nil_iff.1 hchanged a ha⟩
  · intro h
    obtain ⟨artifacts, hartifacts, hunchanged⟩ := exists_artifacts_of_upToDate h
    rw [hartifacts, Report.ofOutcomes_ok]
    exact ⟨List.filter_eq_nil_iff.2 hunchanged, artifacts, rfl⟩

/-- Whether a build that writes leaves the tree alone all the time : after each of its
entries, and at its end. -/
structure Idle (s : Site) (tag : Text) (d : Disk) : Prop where
  entries : ∀ n, Disk.SameTree d (s.renderAll (.write tag) d (s.manifest.entries.take n)).1
  build : Disk.SameTree d (s.build (.write tag) d).1

/-- Pruning leaves the tree alone exactly if it removes no file. -/
theorem sameTree_prune_iff : Disk.SameTree d (s.prune d).1 ↔ ∀ l, ¬s.Removes d l := by
  constructor
  · rintro hsame l ⟨⟨c, hc⟩, hnone⟩
    rw [hsame.node, hc] at hnone
    cases hnone
  · exact fun h => ⟨(frame_prune s d).current, fun l => node?_prune_of_not_removes (h l)⟩

/-- The disk that a build leaves if all entries are up to date. -/
theorem build_of_upToDate (h : ∀ e ∈ s.manifest.entries, s.UpToDate d e) (tag : Text) :
    (s.build (.write tag) d).1 = if s.config.prune then (s.prune d).1 else d := by
  rw [build_write_fst, renderAll_of_upToDate h]

theorem isOk_build_of_upToDate (h : ∀ e ∈ s.manifest.entries, s.UpToDate d e) (tag : Text) :
    (s.build (.write tag) d).2.isOk := by
  rw [build_eq, renderAll_of_upToDate h]
  obtain ⟨artifacts, hartifacts, -⟩ := exists_artifacts_of_upToDate h
  exact (Report.isOk_ofOutcomes_iff (List.length_map _)).2 ⟨artifacts, hartifacts⟩

/-- A build goes well and leaves the tree alone all the time exactly if all entries are up
to date and, where the output directory is pruned, no file is removed. -/
theorem build_idle_iff : (s.build (.write tag) d).2.isOk ∧ s.Idle tag d ↔
    (∀ e ∈ s.manifest.entries, s.UpToDate d e) ∧ (s.config.prune → ∀ l, ¬s.Removes d l) := by
  constructor
  · rintro ⟨hok, hidle⟩
    have huptodate := upToDate_of_renderAll (renderAll_of_isOk hok) hidle.entries
    refine ⟨huptodate, fun hprune => sameTree_prune_iff.1 ?_⟩
    have hbuild := hidle.build
    rwa [build_of_upToDate huptodate, if_pos hprune] at hbuild
  · rintro ⟨huptodate, hspared⟩
    refine ⟨isOk_build_of_upToDate huptodate tag, fun n => ?_, ?_⟩
    · rw [renderAll_of_upToDate fun e he => huptodate e (List.mem_of_mem_take he)]
      exact Disk.SameTree.refl d
    · rw [build_of_upToDate huptodate]
      split
      · rename_i hprune
        exact sameTree_prune_iff.2 (hspared hprune)
      · exact Disk.SameTree.refl d

end Site

end Folio
