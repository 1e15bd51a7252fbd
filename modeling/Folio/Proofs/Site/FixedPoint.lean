import Folio.Proofs.Site.Pruning
import Folio.Proofs.Template.Sections

/-!
# Building twice

A build that goes well leaves a disk on which its artifacts are given again, as long as
it has not disturbed what it reads (`Site.settled_build`) : no file that it writes or
removes is one of those, and no temporary file takes a place that matters
(`Site.Undisturbed`).

Whether the outputs hold these artifacts is then a matter of the artifacts alone. Entries
may share an output, and the last one that is written stays : all outputs hold what they
are to hold exactly if artifacts with one place agree (`Site.read_outputs_iff`). Nothing
is left to be done in that case, and a second build leaves the disk as it is
(`Site.build_build`).
-/

namespace Folio

/-! ## Reports -/

namespace Report

variable {m : Manifest} {pruned : List Path} {r : Report}

theorem ofOutcomes_ok (m : Manifest) (artifacts : List Artifact) (pruned : List Path) :
    ofOutcomes m ((artifacts.map Except.ok).map some) pruned =
      ⟨artifacts, [], m.skipped, pruned⟩ := by
  have hartifacts : ((artifacts.map Except.ok).map some).filterMap artifact? = artifacts := by
    rw [List.map_map, List.filterMap_map]
    exact List.filterMap_some
  have hfailures : ∀ entries : List Entry,
      (entries.zip ((artifacts.map Except.ok).map some)).filterMap
        (fun (e, o) => failure? e o) = [] := by
    intro entries
    refine List.filterMap_eq_nil_iff.2 fun ⟨e, o⟩ h => ?_
    obtain ⟨result, hresult, rfl⟩ := List.mem_map.1 (List.of_mem_zip h).2
    obtain ⟨a, -, rfl⟩ := List.mem_map.1 hresult
    rfl
  rw [ofOutcomes, hartifacts, hfailures]

/-- A report without failures has all results as its artifacts. -/
theorem results_of_isOk {results : List (Except SiteError Artifact)}
    (hlength : results.length = m.entries.length)
    (h : (ofOutcomes m (results.map some) pruned).isOk) :
    results = (ofOutcomes m (results.map some) pruned).artifacts.map .ok := by
  have hall : ∀ (entries : List Entry) (results : List (Except SiteError Artifact)),
      results.length = entries.length →
      (entries.zip (results.map some)).filterMap (fun (e, o) => failure? e o) = [] →
      results = ((results.map some).filterMap artifact?).map .ok := by
    intro entries results
    induction results generalizing entries with
    | nil => exact fun _ _ => rfl
    | cons result rest ih =>
      intro hlength hnone
      cases entries with
      | nil => cases hlength
      | cons e more =>
        cases result with
        | error reason => cases hnone
        | ok a => exact congrArg (Except.ok a :: ·) (ih more (Nat.succ.inj hlength) hnone)
  exact hall m.entries results hlength (List.isEmpty_iff.1 h)

/-- The files that a reported build has read : those the site was loaded from, and the
documents on the chains of the artifacts. -/
def sources (r : Report) (s : Site) : List Path :=
  s.settings ++ r.artifacts.flatMap Artifact.chain

/-- Whether artifacts whose outputs stand at one place have the same contents. -/
def Agrees (r : Report) (d : Disk) : Prop :=
  ∀ a ∈ r.artifacts, ∀ b ∈ r.artifacts, d.place a.output = d.place b.output →
    a.contents = b.contents

instance (r : Report) (d : Disk) : Decidable (r.Agrees d) :=
  inferInstanceAs (Decidable (∀ a ∈ r.artifacts, ∀ b ∈ r.artifacts, _ → _))

/-- Artifacts that stand at their outputs agree. -/
theorem agrees_of_read {d d' : Disk} (hplace : ∀ p, d'.place p = d.place p)
    (hread : ∀ a ∈ r.artifacts, d'.read a.output = .ok a.contents) : r.Agrees d := by
  intro a ha b hb hsame
  obtain ⟨-, hnode⟩ := Disk.read_eq_ok_iff.1 (hread a ha)
  obtain ⟨-, hnode'⟩ := Disk.read_eq_ok_iff.1 (hread b hb)
  rw [hplace, hsame, ← hplace, hnode'] at hnode
  exact (DiskNode.file.inj (Option.some.inj hnode)).symm

end Report

namespace Site

variable {s : Site} {d d' : Disk} {root p : Path} {tag : Text}
  {artifacts : List Artifact}

/-! ## Artifacts that are given again -/

/-- Whether a disk gives artifacts, one for each entry of the manifest. -/
structure Settled (s : Site) (d : Disk) (artifacts : List Artifact) : Prop where
  entries : artifacts.map Artifact.entry = s.manifest.entries
  output : ∀ a ∈ artifacts, a.output = s.outputPath a.entry
  gives : ∀ a ∈ artifacts, s.Gives d a

theorem renderAll_again (mode : BuildMode)
    (houtput : ∀ a ∈ artifacts, a.output = s.outputPath a.entry)
    (hgives : ∀ a ∈ artifacts, s.Gives d a)
    (h : mode = .dryRun ∨ ∀ a ∈ artifacts, d.read a.output = .ok a.contents) :
    s.renderAll mode d (artifacts.map Artifact.entry) =
      (d, (artifacts.map fun a => a.again d).map .ok) := by
  induction artifacts with
  | nil => rfl
  | cons a rest ih =>
    obtain ⟨houtput, houtputs⟩ := List.forall_mem_cons.1 houtput
    obtain ⟨hgives, hgivesAll⟩ := List.forall_mem_cons.1 hgives
    have hread := h.imp_right List.forall_mem_cons.1
    have hfirst := renderEntry_again hgives houtput (hread.imp_right And.left)
    have hrest := ih houtputs hgivesAll (hread.imp_right And.right)
    simp only [List.map_cons, renderAll, hfirst, hrest]

/-- A dry run on a disk that gives artifacts reports these, and changes nothing. -/
theorem Settled.build_dryRun (h : s.Settled d artifacts) : s.build .dryRun d =
    (d, ⟨artifacts.map fun a => a.again d, [], s.manifest.skipped, []⟩) := by
  have hrendered := renderAll_again .dryRun h.output h.gives (Or.inl rfl)
  rw [h.entries] at hrendered
  rw [build_eq, hrendered, Report.ofOutcomes_ok, pruneAfter_dryRun]

/-- Once the outputs hold what the entries give, and nothing is left to be pruned, a build
leaves the disk as it is. -/
theorem Settled.build_write (h : s.Settled d artifacts)
    (hread : ∀ a ∈ artifacts, d.read a.output = .ok a.contents)
    (hpruned : s.pruneAfter (.write tag) d = (d, [])) : s.build (.write tag) d =
      (d, ⟨artifacts.map fun a => a.again d, [], s.manifest.skipped, []⟩) := by
  have hrendered := renderAll_again (.write tag) h.output h.gives (Or.inr hread)
  rw [h.entries] at hrendered
  rw [build_eq, hrendered, Report.ofOutcomes_ok, hpruned]

/-- No artifact that is given again is changed exactly if each output holds its contents. -/
theorem changed_again_eq_nil_iff {failures : List EntryFailure} {skipped : List SkippedLine}
    {pruned : List Path} :
    (⟨artifacts.map fun a => a.again d, failures, skipped, pruned⟩ : Report).changed = [] ↔
      ∀ a ∈ artifacts, d.read a.output = .ok a.contents := by
  rw [Report.changed, List.filter_eq_nil_iff]
  simp only [List.mem_map, forall_exists_index, and_imp, forall_apply_eq_imp_iff₂]
  refine forall₂_congr fun a _ => ?_
  rw [Artifact.isChanged_again, Classical.not_not]

/-! ## What a run over entries leaves behind -/

/-- A run that goes well has built its first entry and goes on from there. -/
theorem exists_of_renderAll_cons {e : Entry} {rest : List Entry}
    (h : (s.renderAll (.write tag) d (e :: rest)).2 = artifacts.map .ok) :
    ∃ d₁ a others, artifacts = a :: others ∧ s.renderEntry d (.write tag) e = (d₁, .ok a) ∧
      (s.renderAll (.write tag) d₁ rest).2 = others.map .ok ∧
      (s.renderAll (.write tag) d (e :: rest)).1 = (s.renderAll (.write tag) d₁ rest).1 ∧
      ∀ p, d₁.place p = d.place p := by
  cases hfirst : s.renderEntry d (.write tag) e with
  | mk d₁ result =>
    simp only [renderAll, hfirst] at h ⊢
    obtain ⟨a, others, rfl, rfl, hrest⟩ := List.map_eq_cons_iff.1 h.symm
    exact ⟨d₁, a, others, rfl, rfl, hrest.symm, rfl,
      Disk.place_congr (frame_renderEntry hfirst).current⟩

theorem renderAll_entries {entries : List Entry}
    (h : (s.renderAll (.write tag) d entries).2 = artifacts.map .ok) :
    artifacts.map Artifact.entry = entries ∧
      ∀ a ∈ artifacts, a.output = s.outputPath a.entry := by
  induction entries generalizing d artifacts with
  | nil =>
    obtain rfl : artifacts = [] := List.map_eq_nil_iff.1 h.symm
    exact ⟨rfl, nofun⟩
  | cons e rest ih =>
    obtain ⟨d₁, a, others, rfl, hfirst, hrest, -⟩ := exists_of_renderAll_cons h
    obtain ⟨-, rfl, houtput, -⟩ := render_eq_ok_iff.1 (renderEntry_eq_ok hfirst).1
    obtain ⟨hentries, houtputs⟩ := ih hrest
    refine ⟨?_, List.forall_mem_cons.2 ⟨houtput, houtputs⟩⟩
    rw [List.map_cons, hentries]

/-- The artifacts of a run are given on the disk that it leaves, if nothing that it writes
is on their chains. -/
theorem gives_renderAll {entries : List Entry}
    (h : (s.renderAll (.write tag) d entries).2 = artifacts.map .ok)
    (hwritten : ∀ b ∈ artifacts, b.isChanged → ∀ a ∈ artifacts, ∀ p ∈ a.chain,
      d.place b.output ≠ d.place p)
    (htemporary : ∀ e ∈ entries, ∀ a ∈ artifacts, ∀ p ∈ a.chain,
      d.place (Writer.temporaryFor (s.outputPath e) tag) ≠ d.place p) :
    ∀ a ∈ artifacts, s.Gives (s.renderAll (.write tag) d entries).1 a := by
  induction entries generalizing d artifacts with
  | nil =>
    obtain rfl : artifacts = [] := List.map_eq_nil_iff.1 h.symm
    exact nofun
  | cons e rest ih =>
    have hframe := frame_renderAll s tag d (e :: rest)
    obtain ⟨d₁, a, others, rfl, hfirst, hrest, hdisk, hplace⟩ := exists_of_renderAll_cons h
    obtain ⟨hgives, -⟩ := render_eq_ok_iff.1 (renderEntry_eq_ok hfirst).1
    refine List.forall_mem_cons.2 ⟨hgives.of_read hframe.current fun p hp c hc => ?_, ?_⟩
    · -- What the first entry has read is not written by any entry of the run.
      refine read_renderAll hc (fun e' he' => htemporary e' he' a List.mem_cons_self p hp) ?_
      intro b hb hchanged hsame
      rw [h] at hb
      obtain ⟨b', hb', heq⟩ := List.mem_map.1 hb
      obtain rfl := Except.ok.inj heq
      exact absurd hsame (hwritten b' hb' hchanged a List.mem_cons_self p hp)
    · rw [hdisk]
      refine ih hrest ?_ ?_ <;> simp only [hplace]
      · exact fun b hb hchanged a' ha' => hwritten b (List.mem_cons_of_mem a hb) hchanged a'
          (List.mem_cons_of_mem a ha')
      · exact fun e' he' a' ha' => htemporary e' (List.mem_cons_of_mem e he') a'
          (List.mem_cons_of_mem a ha')

/-- After a run the outputs hold the contents of the artifacts, if artifacts at one place
agree. -/
theorem read_output_renderAll {entries : List Entry}
    (h : (s.renderAll (.write tag) d entries).2 = artifacts.map .ok)
    (hagree : ∀ a ∈ artifacts, ∀ b ∈ artifacts, d.place a.output = d.place b.output →
      a.contents = b.contents)
    (htemporary : ∀ e ∈ entries, ∀ a ∈ artifacts,
      d.place (Writer.temporaryFor (s.outputPath e) tag) ≠ d.place a.output) :
    ∀ a ∈ artifacts,
      (s.renderAll (.write tag) d entries).1.read a.output = .ok a.contents := by
  induction entries generalizing d artifacts with
  | nil =>
    obtain rfl : artifacts = [] := List.map_eq_nil_iff.1 h.symm
    exact nofun
  | cons e rest ih =>
    obtain ⟨d₁, a, others, rfl, hfirst, hrest, hdisk, hplace⟩ := exists_of_renderAll_cons h
    obtain ⟨-, houtput⟩ := renderEntry_eq_ok hfirst
    rw [hdisk]
    refine List.forall_mem_cons.2 ⟨?_, ?_⟩
    · -- The first output is written, and then written again with the same contents only.
      refine read_renderAll houtput ?_ ?_ <;> simp only [hplace]
      · exact fun e' he' => htemporary e' (List.mem_cons_of_mem e he') a List.mem_cons_self
      · intro b hb _ hsame
        rw [hrest] at hb
        obtain ⟨b', hb', heq⟩ := List.mem_map.1 hb
        obtain rfl := Except.ok.inj heq
        exact hagree b' (List.mem_cons_of_mem a hb') a List.mem_cons_self hsame
    · refine ih hrest ?_ ?_ <;> simp only [hplace]
      · exact fun a' ha' b hb => hagree a' (List.mem_cons_of_mem a ha') b
          (List.mem_cons_of_mem a hb)
      · exact fun e' he' a' ha' => htemporary e' (List.mem_cons_of_mem e he') a'
          (List.mem_cons_of_mem a ha')

/-! ## Builds that do not disturb themselves -/

/-- Whether a build leaves alone what it reads : the files that it writes are none of those,
pruning takes none of them away, and its temporary files are at places of their own. -/
structure Undisturbed (s : Site) (tag : Text) (d : Disk) : Prop where
  written : ∀ a ∈ (s.build (.write tag) d).2.changed,
    ∀ p ∈ (s.build (.write tag) d).2.sources s, d.place a.output ≠ d.place p
  pruned : ∀ p ∈ (s.build (.write tag) d).2.sources s,
    (s.build (.write tag) d).1.node? (d.place p) = none →
      (s.renderAll (.write tag) d s.manifest.entries).1.node? (d.place p) = none
  temporary : ∀ e ∈ s.manifest.entries, ∀ p ∈ (s.build (.write tag) d).2.sources s ++
    (s.build (.write tag) d).2.artifacts.map Artifact.output,
    d.place (Writer.temporaryFor (s.outputPath e) tag) ≠ d.place p

instance (s : Site) (tag : Text) (d : Disk) : Decidable (s.Undisturbed tag d) :=
  decidable_of_iff (_ ∧ _ ∧ _)
    ⟨fun ⟨written, pruned, temporary⟩ => ⟨written, pruned, temporary⟩,
      fun ⟨written, pruned, temporary⟩ => ⟨written, pruned, temporary⟩⟩

/-- A build without failures has its artifacts as the results of all entries. -/
theorem renderAll_of_isOk (h : (s.build (.write tag) d).2.isOk) :
    (s.renderAll (.write tag) d s.manifest.entries).2 =
      (s.build (.write tag) d).2.artifacts.map .ok := by
  rw [build_eq] at h ⊢
  exact Report.results_of_isOk (length_renderAll s.manifest.entries) h

theorem build_disk : (s.build (.write tag) d).1 =
    (s.pruneAfter (.write tag) (s.renderAll (.write tag) d s.manifest.entries).1).1 := by
  rw [build_eq]

/-- What a build touches is what its entries write, temporary files, and what it prunes. -/
theorem frame_build (s : Site) (tag : Text) (d : Disk) :
    let built := (s.renderAll (.write tag) d s.manifest.entries).1
    Disk.Frame
      (fun l => (∃ e ∈ s.manifest.entries,
          l = d.place (Writer.temporaryFor (s.outputPath e) tag)) ∨
        (∃ a, .ok a ∈ (s.renderAll (.write tag) d s.manifest.entries).2 ∧ a.isChanged ∧
          l = d.place a.output) ∨
        (s.config.prune ∧ s.Removes built l))
      (fun l => (∃ e ∈ s.manifest.entries,
          l = d.place (Writer.temporaryFor (s.outputPath e) tag)) ∨
        (s.config.prune ∧ s.Removes built l))
      d (s.build (.write tag) d).1 := by
  intro built
  have hentries := frame_renderAll s tag d s.manifest.entries
  have hprune := frame_pruneAfter s tag built
  rw [build_disk]
  refine (hentries.mono ?_ fun l => Or.inl).trans (hprune.mono ?_ fun l => Or.inr)
  · exact fun l => Or.imp_right Or.inl
  · exact fun l hl => Or.inr (Or.inr hl)

/-- What an undisturbed build reads it does not prune. -/
theorem Undisturbed.not_pruned (hu : s.Undisturbed tag d)
    (hsource : p ∈ (s.build (.write tag) d).2.sources s) :
    ¬(s.config.prune ∧
      s.Removes (s.renderAll (.write tag) d s.manifest.entries).1 (d.place p)) := by
  rintro ⟨hprune, ⟨c, hc⟩, hnone⟩
  have hgone := hu.pruned p hsource
  rw [build_write_fst, if_pos hprune] at hgone
  rw [hgone hnone] at hc
  cases hc

section Again

variable (hok : (s.build (.write tag) d).2.isOk) (hu : s.Undisturbed tag d)
include hok hu

/-- The artifacts of an undisturbed build are given on the disk that it leaves. -/
theorem settled_build :
    s.Settled (s.build (.write tag) d).1 (s.build (.write tag) d).2.artifacts := by
  have hresults := renderAll_of_isOk hok
  have hprune := frame_pruneAfter s tag (s.renderAll (.write tag) d s.manifest.entries).1
  have hsource : ∀ a ∈ (s.build (.write tag) d).2.artifacts, ∀ p ∈ a.chain,
      p ∈ (s.build (.write tag) d).2.sources s := fun a ha p hp =>
    List.mem_append_right _ (List.mem_flatMap.2 ⟨a, ha, hp⟩)
  obtain ⟨hentries, houtputs⟩ := renderAll_entries hresults
  refine ⟨hentries, houtputs, fun a ha => ?_⟩
  have hgives : s.Gives (s.renderAll (.write tag) d s.manifest.entries).1 a := by
    refine gives_renderAll hresults (fun b hb hchanged a' ha' p hp => ?_) ?_ a ha
    · exact hu.written b (List.mem_filter.2 ⟨hb, hchanged⟩) p (hsource a' ha' p hp)
    · intro e he a' ha' p hp
      exact hu.temporary e he p (List.mem_append_left _ (hsource a' ha' p hp))
  rw [build_disk]
  refine hgives.of_read hprune.current fun p hp c hc => hprune.read hc ?_
  rw [Disk.place_congr (frame_renderAll s tag d s.manifest.entries).current]
  exact hu.not_pruned (hsource a ha p hp)

variable (hroot : s.root.isAbsolute)
include hroot

/-- After an undisturbed build the outputs hold the contents of the artifacts if and only
if artifacts at one place agree. -/
theorem read_outputs_iff :
    (∀ a ∈ (s.build (.write tag) d).2.artifacts,
      (s.build (.write tag) d).1.read a.output = .ok a.contents) ↔
      (s.build (.write tag) d).2.Agrees d := by
  have hresults := renderAll_of_isOk hok
  have hframe := frame_renderAll s tag d s.manifest.entries
  have hprune := frame_pruneAfter s tag (s.renderAll (.write tag) d s.manifest.entries).1
  obtain ⟨hentries, houtputs⟩ := renderAll_entries hresults
  have hplace : ∀ p, (s.build (.write tag) d).1.place p = d.place p := by
    rw [build_disk]
    exact Disk.place_congr (hprune.current.trans hframe.current)
  refine ⟨Report.agrees_of_read hplace, fun hagree a ha => ?_⟩
  have hread : (s.renderAll (.write tag) d s.manifest.entries).1.read a.output =
      .ok a.contents := by
    refine read_output_renderAll hresults hagree (fun e he b hb => ?_) a ha
    exact hu.temporary e he b.output (List.mem_append_right _ (List.mem_map_of_mem hb))
  have hentry : a.entry ∈ s.manifest.entries := by
    rw [← hentries]
    exact List.mem_map_of_mem ha
  rw [build_disk]
  refine hprune.read hread ?_
  rw [houtputs a ha]
  exact fun h => not_exposes_of_output hroot hentry (exposes_of_removes h.2)

/-- A site is loaded again after an undisturbed build. -/
theorem load_build (hload : load d s.root = .ok s) :
    load (s.build (.write tag) d).1 s.root = .ok s := by
  have hresults := renderAll_of_isOk hok
  refine load_of_frame hload (Path.text_ne_nil_of_isAbsolute hroot) (frame_build s tag d)
    fun p hp => ?_
  have hsource : p ∈ (s.build (.write tag) d).2.sources s := List.mem_append_left _ hp
  rintro (⟨e, he, heq⟩ | ⟨a, ha, hchanged, heq⟩ | hpruned)
  · exact hu.temporary e he p (List.mem_append_left _ hsource) heq.symm
  · rw [hresults] at ha
    obtain ⟨a', ha', hsame⟩ := List.mem_map.1 ha
    obtain rfl := Except.ok.inj hsame
    exact hu.written a' (List.mem_filter.2 ⟨ha', hchanged⟩) p hsource heq.symm
  · exact hu.not_pruned hsource hpruned

/-- After an undisturbed build whose artifacts agree a build has nothing to do. -/
theorem build_build (hagree : (s.build (.write tag) d).2.Agrees d) (again : Text) :
    s.build (.write again) (s.build (.write tag) d).1 = ((s.build (.write tag) d).1,
      ⟨(s.build (.write tag) d).2.artifacts.map fun a => a.again (s.build (.write tag) d).1,
        [], s.manifest.skipped, []⟩) := by
  have hsettled := settled_build hok hu
  have hread := (read_outputs_iff hok hu hroot).2 hagree
  refine hsettled.build_write hread ?_
  rw [build_disk]
  exact pruneAfter_pruneAfter s tag again _

end Again

end Site

end Folio
