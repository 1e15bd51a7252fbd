import Folio.Proofs.Site.AnyOrder
import Folio.Proofs.Site.Readers

/-!
# The effects of a build

`Effects` bounds what a build does to the disk, told by its report : a file is new or has
new contents only if it is the output of an entry that was built, or a temporary file whose
writer has failed half way; a directory is new only above an output; and a file is gone only
if it was pruned.

What was pruned is reported, unless pruning removes a file and then comes to one that it
cannot remove, for then the list is lost with it (`Site.reported_prune_iff`) : so it is with
`Site.pruned_unreported`. A temporary file is left exactly if some writer fails half way
(`Crew.Run.free_iff`), as in `Crew.spoiled_temporary`.

Every tidy run of a crew that comes to a report has these effects (`Crew.Run.effects`), and
so has a build whose tag is fresh (`Site.effects_build`). A crew that does not write leaves
the disk alone (`Crew.Run.disk_of_dryRun`).
-/

namespace Folio

/-- The second disk is the first one after a build of a site that made a report; `left` are
places of temporary files. -/
structure Effects (s : Site) (d d' : Disk) (r : Report) (left : Location → Prop) : Prop where
  current : d'.current = d.current
  /-- A file is as it was, or it is the output of an entry that was built, or it is left. -/
  files : ∀ l x, d'.node? l = some (.file x) → d.node? l = some (.file x) ∨
    (∃ a ∈ r.artifacts, s.Lists a ∧ a.isChanged ∧ l = d.place a.output ∧ x = a.contents) ∨ left l
  /-- A directory was there, or it is above an output. -/
  directories : ∀ l, d'.node? l = some .directory → d.node? l = some .directory ∨
    ∃ e ∈ s.manifest.entries, ∃ q, q.Above (s.outputPath e) ∧ l = d.place q
  kept : ∀ l, d.node? l = some .directory → d'.node? l = some .directory
  /-- A file is still there, or it was pruned. -/
  stays : ∀ l x, d.node? l = some (.file x) →
    (∃ y, d'.node? l = some (.file y)) ∨ s.config.prune ∧ s.Leftover d l
  gone : ∀ p ∈ r.pruned, d'.node? (d.place p) = none

theorem Effects.mono {s : Site} {d d' : Disk} {r : Report} {left left' : Location → Prop}
    (h : Effects s d d' r left) (hleft : ∀ l, left l → left' l) : Effects s d d' r left' :=
  { h with files := fun l x hx => (h.files l x hx).imp_right (Or.imp_right (hleft l)) }

/-- No file is where a temporary one may have been, unless it is left. -/
theorem Effects.free_of_own {s : Site} {d d' : Disk} {r : Report} {left : Location → Prop}
    {l : Location} (h : Effects s d d' r left) (hl : s.Own d l) (hleft : ¬left l)
    (x : ByteArray) : d'.node? l ≠ some (.file x) := by
  intro hx
  rcases h.files l x hx with hold | ⟨a, -, hlisted, -, rfl, -⟩ | hleft'
  · exact hl.free x hold
  · refine hl.apart a.entry hlisted.entry ?_
    rw [hlisted.output]
  · exact hleft hleft'

/-- Whether each file that is gone is among those that are said to be removed. -/
def Reported (d d' : Disk) (removed : List Path) : Prop :=
  ∀ l x, d.node? l = some (.file x) → d'.node? l = none → ∃ p ∈ removed, l = d.place p

/-! ## Pruning -/

namespace Site

variable {s : Site} {d disk : Disk} {mode : BuildMode} {l : Location}

/-- The second disk is the first one after pruning. -/
structure Removal (s : Site) (d d' : Disk) (removed : List Path) : Prop where
  current : d'.current = d.current
  node : ∀ l, d'.node? l = d.node? l ∨ d'.node? l = none ∧ (∃ x, d.node? l = some (.file x)) ∧
    s.config.prune ∧ s.Exposes d l
  gone : ∀ p ∈ removed, d'.node? (d.place p) = none

theorem removal_nil (s : Site) (d : Disk) : s.Removal d d [] :=
  ⟨rfl, fun _ => Or.inl rfl, nofun⟩

/-- The stale paths are those of the files that are gone, and a rest. If there is a rest, the
first of it was no file. -/
theorem exists_gone_paths (h : s.Prunable d) : ∃ gone rest, s.stalePaths d = gone ++ rest ∧
    (∀ p ∈ gone, d.isFile p) ∧
    (∀ l x, d.node? l = some (.file x) →
      ((s.prune d).1.node? l = none ↔ ∃ p ∈ gone, l = d.place p)) ∧
    (rest = [] ∧ (s.prune d).2 = .ok (gone.mergeSort Path.le) ∨
      ∃ p more e, rest = p :: more ∧ (s.prune d).2 = .error (.unremovable e) ∧ ¬d.isFile p) := by
  obtain ⟨gone, rest, hstale, hgone, hdirectory, hdisk, hrest⟩ := exists_gone h
  have hpaths : s.stalePaths d = gone.map s.spelledBelow ++ rest.map s.spelledBelow := by
    rw [stalePaths, hstale, List.map_append]
  have hplace : ∀ names ∈ gone,
      d.place (s.spelledBelow names) = d.place s.outputDir ++ names := by
    intro names hmem
    have hmem' : names ∈ s.stale d (d.place s.outputDir) := by
      rw [hstale]
      exact List.mem_append_left _ hmem
    exact place_spelledBelow (mem_stale.1 hmem').2.1.1 d
  have hremoved : ∀ l x, d.node? l = some (.file x) →
      ((s.prune d).1.node? l = none ↔ ∃ p ∈ gone.map s.spelledBelow, l = d.place p) := by
    intro l x hx
    rw [hdisk, Disk.node?_foldl_removeTree hdirectory]
    split
    · rename_i hmem
      obtain ⟨names, hnames, rfl⟩ := List.mem_map.1 hmem
      exact iff_of_true rfl ⟨_, List.mem_map_of_mem hnames, (hplace names hnames).symm⟩
    · rename_i hmem
      rw [hx]
      refine iff_of_false (Option.some_ne_none _) ?_
      rintro ⟨p, hp, rfl⟩
      obtain ⟨names, hnames, rfl⟩ := List.mem_map.1 hp
      exact hmem (List.mem_map.2 ⟨names, hnames, (hplace names hnames).symm⟩)
  refine ⟨_, _, hpaths, List.forall_mem_map.2 hgone, hremoved, ?_⟩
  rcases hrest with ⟨rfl, hok⟩ | ⟨names, more, e, rfl, herror, hnot⟩
  · rw [hpaths, List.map_nil, List.append_nil] at hok
    exact Or.inl ⟨rfl, hok⟩
  · exact Or.inr ⟨_, _, e, rfl, herror, hnot⟩

/-- The files whose paths are answered are gone. -/
theorem node?_of_mem_pruned {removed : List Path} (hremoved : (s.prune d).2 = .ok removed)
    {p : Path} (hp : p ∈ removed) : (s.prune d).1.node? (d.place p) = none := by
  by_cases h : s.Prunable d
  · obtain ⟨gone, rest, -, hgone, hnone, ⟨-, hok⟩ | ⟨-, -, e, -, herror, -⟩⟩ :=
      exists_gone_paths h
    · obtain rfl := Except.ok.inj (hok.symm.trans hremoved)
      have hmem := List.mem_mergeSort.1 hp
      obtain ⟨x, hx⟩ := Disk.isFile_iff.1 (hgone p hmem)
      exact (hnone _ x (Disk.read_eq_ok_iff.1 hx).2).2 ⟨p, hmem, rfl⟩
    · rw [herror] at hremoved
      cases hremoved
  · rcases prune_of_not_prunable h with heq | ⟨dir, -, heq⟩ <;> rw [heq] at hremoved
    · obtain rfl := Except.ok.inj hremoved
      cases hp
    · cases hremoved

theorem removal_pruneAfter (s : Site) (mode : BuildMode) (d : Disk) :
    s.Removal d (s.pruneAfter mode d).1 (s.pruneAfter mode d).2 := by
  cases mode with
  | dryRun =>
    rw [pruneAfter_dryRun]
    exact removal_nil s d
  | write tag =>
    rw [pruneAfter_write]
    split
    · rename_i hprune
      refine ⟨(frame_prune s d).current, fun l => ?_, fun p hp => ?_⟩
      · by_cases h : s.Removes d l
        · exact Or.inr ⟨h.2, h.1, hprune, exposes_of_removes h⟩
        · exact Or.inl (node?_prune_of_not_removes h)
      · cases hresult : (s.prune d).2 with
        | error reason =>
          rw [hresult] at hp
          cases hp
        | ok removed =>
          rw [hresult] at hp
          exact node?_of_mem_pruned hresult hp
    · exact removal_nil s d

/-- Whether pruning removes a file and then comes to one that cannot be removed. -/
def BreaksOff (s : Site) (d : Disk) : Prop :=
  s.Prunable d ∧ ∃ first rest, s.stalePaths d = first :: rest ∧ d.isFile first ∧
    ∃ p ∈ rest, ¬d.isFile p

/-- Pruning does not break off if all files can be removed. -/
theorem Walkable.not_breaksOff (hw : s.Walkable d) : ¬s.BreaksOff d := by
  rintro ⟨-, first, rest, hstale, -, p, hp, hnot⟩
  have hmem : p ∈ s.stalePaths d := by
    rw [hstale]
    exact List.mem_cons_of_mem first hp
  obtain ⟨names, hnames, rfl⟩ := List.mem_map.1 hmem
  exact hnot (hw names (mem_namesBelow.2 (mem_stale.1 hnames).1)).2

theorem reported_refl (d : Disk) : Reported d d [] := by
  intro l x hx hnone
  rw [hx] at hnone
  cases hnone

/-- All that pruning removes is reported, unless it breaks off. -/
theorem reported_prune_iff (s : Site) (d : Disk) :
    Reported d (s.prune d).1 ((s.prune d).2.toOption.getD []) ↔ ¬s.BreaksOff d := by
  by_cases h : s.Prunable d
  · obtain ⟨gone, rest, hpaths, hgone, hnone, ⟨rfl, hok⟩ | ⟨q, more, e, rfl, herror, hnot⟩⟩ :=
      exists_gone_paths h
    · rw [hok]
      refine iff_of_true (fun l x hx hl => ?_) ?_
      · obtain ⟨p, hp, hplace⟩ := (hnone l x hx).1 hl
        exact ⟨p, List.mem_mergeSort.2 hp, hplace⟩
      · rintro ⟨-, first, rest, hcons, -, p, hp, hnot⟩
        rw [List.append_nil] at hpaths
        rw [← hpaths, hcons] at hgone
        exact hnot (hgone p (List.mem_cons_of_mem first hp))
    · rw [herror]
      cases gone with
      | nil =>
        -- It stops at the first file, and nothing is gone.
        refine iff_of_true (fun l x hx hl => ?_) ?_
        · obtain ⟨p, hp, -⟩ := (hnone l x hx).1 hl
          cases hp
        · rintro ⟨-, first, rest, hcons, hfirst, -⟩
          obtain ⟨rfl, -⟩ := List.cons.inj (hpaths.symm.trans hcons)
          exact hnot hfirst
      | cons p gone =>
        have hp := hgone p List.mem_cons_self
        obtain ⟨x, hx⟩ := Disk.isFile_iff.1 hp
        have hnode := (Disk.read_eq_ok_iff.1 hx).2
        refine iff_of_false (fun hreported => ?_) (not_not.2 ⟨h, p, _, hpaths, hp, q,
          List.mem_append_right _ List.mem_cons_self, hnot⟩)
        obtain ⟨other, hother, -⟩ := hreported _ x hnode
          ((hnone _ x hnode).2 ⟨p, List.mem_cons_self, rfl⟩)
        cases hother
  · refine iff_of_true ?_ fun hbreaks => h hbreaks.1
    rcases prune_of_not_prunable h with heq | ⟨dir, -, heq⟩ <;> rw [heq] <;> exact reported_refl d

theorem reported_pruneAfter_iff (s : Site) (mode : BuildMode) (d : Disk) :
    Reported d (s.pruneAfter mode d).1 (s.pruneAfter mode d).2 ↔
      ¬(mode.writes ∧ s.config.prune ∧ s.BreaksOff d) := by
  cases mode with
  | dryRun =>
    rw [pruneAfter_dryRun]
    exact iff_of_true (reported_refl d) fun h => nomatch h.1
  | write tag =>
    have hwrites : (BuildMode.write tag).writes = true := rfl
    rw [pruneAfter_write]
    split
    · rename_i hprune
      simp only [hwrites, hprune, true_and]
      exact reported_prune_iff s d
    · rename_i hprune
      exact iff_of_true (reported_refl d) fun h => hprune h.2.1

/-- What is exposed after all entries are built, and was a file before, is left over. -/
theorem leftover_of_exposes (hroot : s.root.isAbsolute) (hnamed : d.WellNamed)
    (hcurrent : disk.current = d.current) (h : s.Exposes disk l)
    {x : ByteArray} (hx : d.node? l = some (.file x)) : s.Leftover d l := by
  obtain ⟨-, names, -, rfl, hunlisted⟩ := h
  rw [Disk.place_congr hcurrent] at hx ⊢
  have hnames : ∀ n ∈ names, n.IsName := fun n hn =>
    Disk.wellNamed_iff.1 hnamed _ _ hx n (List.mem_append_right _ hn)
  rw [normal_spelledBelow hroot hnames d] at hunlisted
  refine ⟨⟨x, hx⟩, ?_, hunlisted⟩
  rw [normal_outputDir hroot d, liesIn_normalOf]
  exact List.prefix_append _ names

end Site

/-! ## Crews -/

namespace Crew

variable {s : Site} {mode : BuildMode} {bound : Nat} {events : List Event} {event : Event}
  {c c' : Crew} {d d' disk : Disk} {built : Artifact → Prop} {left : Location → Prop}
  {r : Report} {tag : Text} {l : Location}

/-- When no worker is in flight, nothing but what was built, left and pruned tells both
disks apart. -/
theorem Traces.effects (h : Traces s d disk built left []) (hroot : s.root.isAbsolute)
    (hnamed : d.WellNamed) (hbuilt : ∀ a, built a → a ∈ r.artifacts)
    (hremoval : s.Removal disk d' r.pruned) : Effects s d d' r left := by
  have hplace : ∀ p, disk.place p = d.place p := Disk.place_congr h.current
  constructor
  case current => exact hremoval.current.trans h.current
  case files =>
    intro l x hx
    rcases hremoval.node l with heq | ⟨hnone, -⟩
    · rw [heq] at hx
      rcases h.files l x hx with hold | ⟨a, ha, hlx⟩ | ⟨task, a, w, hmem, -⟩ | hleft
      · exact Or.inl hold
      · exact Or.inr (Or.inl ⟨a, hbuilt a ha, hlx⟩)
      · cases hmem
      · exact Or.inr (Or.inr hleft)
    · rw [hnone] at hx
      cases hx
  case directories =>
    intro l hl
    rcases hremoval.node l with heq | ⟨hnone, -⟩
    · exact h.directories l (heq ▸ hl)
    · rw [hnone] at hl
      cases hl
  case kept =>
    intro l hl
    have hdir := h.kept l hl
    rcases hremoval.node l with heq | ⟨-, ⟨x, hx⟩, -⟩
    · rw [heq, hdir]
    · rw [hdir] at hx
      cases hx
  case stays =>
    intro l x hx
    rcases hremoval.node l with heq | ⟨-, -, hprune, hexposes⟩
    · rw [heq]
      exact Or.inl (h.stays l x hx)
    · exact Or.inr ⟨hprune, Site.leftover_of_exposes hroot hnamed h.current hexposes hx⟩
  case gone =>
    intro p hp
    rw [← hplace]
    exact hremoval.gone p hp

/-- No file is where a temporary one may be, unless it is left or in use. -/
theorem Traces.free_of_own {busy : List (Nat × Job)} (h : Traces s d disk built left busy)
    (hl : s.Own d l) (hbusy : ∀ task a w, (task, .writing a w) ∉ busy) (hleft : ¬left l)
    (x : ByteArray) : disk.node? l ≠ some (.file x) := by
  intro hx
  rcases h.files l x hx with hold | ⟨a, -, hlisted, -, rfl, -⟩ | ⟨task, a, w, hmem, -⟩ | hleft'
  · exact hl.free x hold
  · refine hl.apart a.entry hlisted.entry ?_
    rw [hlisted.output]
  · exact hbusy task a w hmem
  · exact hleft hleft'

section Reports

variable (h : Run s mode (Tidy s mode d) (start bound d) events c)
  (hstep : Step s mode c .report c') (hr : c'.report = some r)
include h hstep hr

/-- What a tidy run that comes to a report has done. -/
theorem Run.effects (hroot : s.root.isAbsolute) (hnamed : d.WellNamed) :
    Effects s d c'.disk r (Spoilt d events) := by
  obtain ⟨hbusy, hended, hnone, hdisk, hreport⟩ := hstep.eq_report
  obtain rfl := Option.some.inj (hreport.symm.trans hr)
  obtain ⟨left, horderly⟩ := h.exists_orderly hnone
  have htraces := horderly.traces
  rw [hbusy] at htraces
  rw [hdisk]
  refine (htraces.effects hroot hnamed (fun a ⟨task, hmem⟩ => ?_)
    (s.removal_pruneAfter mode c.disk)).mono horderly.spoilt
  have hresult : (task, .ok a) ∈ c.results := hmem.resolve_left (by
    rw [hended]
    exact List.not_mem_nil)
  exact List.mem_filterMap.2 ⟨_, mem_collected.2 (Or.inl hresult), rfl⟩

omit h in
/-- What the report leaves out. -/
theorem Step.reported_iff : Reported c.disk c'.disk r.pruned ↔
    ¬(mode.writes ∧ s.config.prune ∧ s.BreaksOff c.disk) := by
  obtain ⟨-, -, -, hdisk, hreport⟩ := hstep.eq_report
  obtain rfl := Option.some.inj (hreport.symm.trans hr)
  rw [hdisk]
  exact s.reported_pruneAfter_iff mode c.disk

/-- If no writer fails half way, what is removed was there at first. -/
theorem Run.reported_iff (hroot : s.root.isAbsolute) (hspoil : ∀ task, .spoil task ∉ events) :
    Reported d c'.disk r.pruned ↔ Reported c.disk c'.disk r.pruned := by
  obtain ⟨hbusy, -, hnone, hdisk, hreport⟩ := hstep.eq_report
  obtain rfl := Option.some.inj (hreport.symm.trans hr)
  obtain ⟨left, horderly⟩ := h.exists_orderly hnone
  have htraces := horderly.traces
  have hplace : ∀ p, c.disk.place p = d.place p := Disk.place_congr htraces.current
  constructor
  · intro hreported l x hx hgone
    rcases htraces.files l x hx with hold | ⟨a, -, hlisted, -, rfl, -⟩ | ⟨task, a, w, hmem, -⟩ | hl
    · obtain ⟨p, hp, rfl⟩ := hreported l x hold hgone
      exact ⟨p, hp, (hplace p).symm⟩
    · -- No output is exposed.
      rw [hdisk] at hgone
      rcases (s.removal_pruneAfter mode c.disk).node (d.place a.output) with
        heq | ⟨-, -, -, hexposes⟩
      · rw [heq, hx] at hgone
        cases hgone
      · rw [hlisted.output, ← hplace] at hexposes
        exact absurd hexposes (Site.not_exposes_of_output hroot hlisted.entry)
    · rw [hbusy] at hmem
      cases hmem
    · obtain ⟨task, -, -, -, hmem, -⟩ := horderly.spoilt l hl
      exact absurd hmem (hspoil task)
  · intro hreported l x hx hgone
    obtain ⟨y, hy⟩ := htraces.stays l x hx
    obtain ⟨p, hp, rfl⟩ := hreported l y hy hgone
    exact ⟨p, hp, hplace p⟩

end Reports

/-- The temporary files of a tidy run have names of their own. -/
theorem Run.own_of_render (h : Run s mode (Tidy s mode d) c events c') (hwrites : mode.writes)
    {task : Nat} {a : Artifact} (hmem : .render task tag (.ok a) ∈ events)
    (hchanged : a.isChanged) : s.Own d (d.place (Writer.temporaryFor a.output tag)) := by
  obtain ⟨c₀, hok⟩ := h.exists_allowed hmem
  exact (hok hwrites hchanged).1

/-- When a tidy run can make its report, no temporary file is left exactly if no writer has
failed half way. -/
theorem Run.free_iff (h : Run s mode (Tidy s mode d) (start bound d) events c)
    (hstep : Step s mode c .report c') :
    (∀ task tag a, .render task tag (.ok a) ∈ events → mode.writes → a.isChanged →
      ∀ x, c.disk.node? (d.place (Writer.temporaryFor a.output tag)) ≠ some (.file x)) ↔
    ∀ task, .spoil task ∉ events := by
  obtain ⟨hbusy, -, hnone, -⟩ := hstep.eq_report
  obtain ⟨left, horderly⟩ := h.exists_orderly hnone
  constructor
  · intro hfree task hspoil
    obtain ⟨hwrites, tag, a, hchanged, hrender, hleft⟩ := horderly.left task hspoil
    obtain ⟨-, ⟨x, hx⟩, -⟩ := horderly.traces.remains _ hleft
    exact hfree task tag a hrender hwrites hchanged x hx
  · intro hspoil task tag a hrender hwrites hchanged
    refine horderly.traces.free_of_own (h.own_of_render hwrites hrender hchanged) ?_ ?_
    · rw [hbusy]
      exact fun _ _ _ => List.not_mem_nil
    · intro hleft
      obtain ⟨other, -, -, -, hother, -⟩ := horderly.spoilt _ hleft
      exact hspoil other hother

/-! ## A write that fails half way -/

/-- A site with one entry. -/
def onePage : Site where
  root := .ofString "/p"
  config := {}
  manifest := ⟨[⟨.ofString "page", .copy, .ofString "page", 1⟩], []⟩
  globals := .empty

/-- What its entry gives. -/
def newPage : Artifact where
  entry := ⟨.ofString "page", .copy, .ofString "page", 1⟩
  output := .ofString "/p/site/page"
  contents := "new\n".toUTF8
  previous := none
  chain := []
  warnings := []

/-- A project whose output directory is there. -/
def noPage : Disk :=
  .ofFiles [("/p/site-description/out.txt", ""), ("/p/site/index", "")]

/-- The writer of this page. -/
def pageWriter : Writer :=
  .start newPage.output ['1'] newPage.contents

/-- A crew of one worker that is at a job, or has ended. -/
def oneWorker (d : Disk) (permits : Nat) (busy : List (Nat × Job))
    (ended : List (Nat × Report.Outcome)) : Crew :=
  ⟨d, permits, false, 1, busy, ended, [0], [], none⟩

theorem own_noPage :
    onePage.Own noPage (noPage.place (Writer.temporaryFor newPage.output ['1'])) where
  free := by
    intro x
    have h : noPage.node? (noPage.place (Writer.temporaryFor newPage.output ['1'])) = none := by
      decide +kernel
    rw [h]
    nofun
  apart := by
    decide +kernel

/-- A worker of this site that fails half way leaves its temporary file. -/
theorem spoiled_temporary : ∃ events c c',
    Run onePage (.write []) (Tidy onePage (.write []) noPage) (start 1 noPage) events c ∧
    Step onePage (.write []) c .report c' ∧ .spoil 0 ∈ events ∧
    ∃ x, c.disk.node? (noPage.place (Writer.temporaryFor newPage.output ['1'])) =
      some (.file x) := by
  have hown := own_noPage
  have hundone : (pageWriter.step noPage).2.result? = none := by
    decide +kernel
  have hsome : ((pageWriter.step noPage).2.spoil (pageWriter.step noPage).1 .empty).isSome := by
    decide +kernel
  obtain ⟨-, htemporary, -⟩ := Writer.step_same noPage pageWriter
  have hcurrent := (Writer.frame_step noPage pageWriter).current
  obtain ⟨d', hspoil⟩ := Option.isSome_iff_exists.1 hsome
  generalize hready : pageWriter.step noPage = ready at hundone hspoil htemporary hcurrent
  generalize noPage = d at hown hready hcurrent
  obtain ⟨d₁, w⟩ := ready
  have hspawned : Run onePage (.write []) (Tidy onePage (.write []) d) (start 1 d)
      [.acquire, .spawn] (oneWorker d 0 [(0, .rendering)] []) :=
    .snoc (.snoc (.nil _) trivial (.acquire Nat.one_pos rfl Nat.one_pos)) trivial (.spawn rfl)
  have htidy : Tidy onePage (.write []) d (oneWorker d 0 [(0, .rendering)] [])
      (.render 0 ['1'] (.ok newPage)) := fun _ _ =>
    ⟨hown, hown.free, fun task b w hmem => nomatch List.mem_singleton.1 hmem⟩
  have hbegin : Step onePage (.write []) (oneWorker d 0 [(0, .rendering)] [])
      (.render 0 ['1'] (.ok newPage)) (oneWorker d 0 [(0, .writing newPage pageWriter)] []) :=
    .begin (show _ = [] ++ (0, Job.rendering) :: [] from rfl) ⟨rfl, rfl⟩ rfl rfl
  have hproceed : Step onePage (.write []) (oneWorker d 0 [(0, .writing newPage pageWriter)] [])
      (.write 0) (oneWorker d₁ 0 [(0, .writing newPage w)] []) :=
    .proceed (show _ = [] ++ (0, Job.writing newPage pageWriter) :: [] from rfl) hready hundone
  have hfail : Step onePage (.write []) (oneWorker d₁ 0 [(0, .writing newPage w)] []) (.spoil 0)
      (oneWorker d' 1 [] [(0, some (written newPage (.error .noSpace)))]) :=
    .spoil (show _ = [] ++ (0, Job.writing newPage w) :: [] from rfl)
      ByteArray.empty_append.symm hspoil
  have hmeet : Step onePage (.write [])
      (oneWorker d' 1 [] [(0, some (written newPage (.error .noSpace)))]) (.join 0)
      { oneWorker d' 1 [] [] with
        pending := [], results := [(0, written newPage (.error .noSpace))] } :=
    .collect rfl (show _ = [] ++ (0, some (written newPage (.error .noSpace))) :: [] from rfl)
  have hrun : Run onePage (.write []) (Tidy onePage (.write []) d) (start 1 d)
      ([.acquire, .spawn] ++ [.render 0 ['1'] (.ok newPage)] ++ [.write 0] ++ [.spoil 0] ++
        [.join 0]) _ :=
    .snoc (.snoc (.snoc (.snoc hspawned htidy hbegin) trivial hproceed) trivial hfail) trivial hmeet
  obtain ⟨-, -, hnode⟩ := Disk.writeFile_eq_ok_node? (Writer.spoil_eq_some hspoil)
  refine ⟨_, _, _, hrun, .report rfl rfl rfl rfl, by simp, _, (hnode _).trans (if_pos ?_)⟩
  rw [htemporary, Disk.place_congr hcurrent]
  rfl

/-! ## Crews that do not write -/

/-- What a crew that does not write does : it comes to no writer. -/
theorem Step.disk_of_dryRun (hstep : Step s .dryRun c event c')
    (hbusy : ∀ task a w, (task, .writing a w) ∉ c.busy) :
    c'.disk = c.disk ∧ ∀ task a w, (task, .writing a w) ∉ c'.busy := by
  cases hstep with
  | acquire => exact ⟨rfl, hbusy⟩
  | spawn holding =>
    refine ⟨rfl, fun task a w hmem => ?_⟩
    rcases List.mem_cons.1 hmem with heq | hmem
    · cases heq
    · exact hbusy task a w hmem
  | settle busy | lose busy =>
    rw [busy] at hbusy
    exact ⟨rfl, fun task a w hmem => hbusy task a w (mem_append_cons hmem)⟩
  | begin busy answer writes => cases writes
  | proceed busy | conclude busy | spoil busy =>
    rw [busy] at hbusy
    exact absurd List.mem_append_cons_self (hbusy _ _ _)
  | collect | miss => exact ⟨rfl, hbusy⟩
  | report =>
    refine ⟨?_, hbusy⟩
    dsimp only
    rw [Site.pruneAfter_dryRun]

theorem Run.disk_of_dryRun {allowed : Crew → Event → Prop}
    (h : Run s .dryRun allowed (start bound d) events c) :
    c.disk = d ∧ ∀ task a w, (task, .writing a w) ∉ c.busy := by
  induction h with
  | nil => exact ⟨rfl, nofun⟩
  | snoc run ok step ih =>
    obtain ⟨hdisk, hbusy⟩ := step.disk_of_dryRun ih.2
    exact ⟨hdisk.trans ih.1, hbusy⟩

/-! ## One worker at a time -/

theorem own_of_fresh {tag : Entry → Text} (hfresh : s.Fresh tag d) {e : Entry}
    (he : e ∈ s.manifest.entries) :
    s.Own d (d.place (Writer.temporaryFor (s.outputPath e) (tag e))) where
  free x hx := by
    rw [hfresh.vacant e he] at hx
    cases hx
  apart e' he' heq := hfresh.own e he e' he' (heq ▸ List.prefix_refl _)

/-- With a fresh tag, a crew that has one worker at a time is tidy, and its workers render
what is there. -/
theorem Run.proper_of_alone (hfresh : mode.writes → s.Fresh (fun _ => tagOf mode) d)
    (h : Run s mode (Alone s mode) (start bound d) events c) (hreport : c.report = none) :
    Run s mode (Proper s mode d) (start bound d) events c := by
  induction h with
  | nil => exact .nil _
  | @snoc c₀ _ events event run ok step ih =>
    have hnone := step.report_eq_none hreport
    have hproper := ih hnone
    refine hproper.snoc ⟨ok.reads, ?_⟩ step
    cases event with
    | lose task => exact ok.elim
    | render task tag result =>
      obtain ⟨hbusy, hreads, rfl⟩ := ok
      cases result with
      | error reason => trivial
      | ok a =>
        intro hwrites _
        have hwriting : ∀ task b w, (task, .writing b w) ∉ c₀.busy := by
          rintro other b w hmem
          rw [hbusy] at hmem
          cases List.mem_singleton.1 hmem
        obtain ⟨left, horderly⟩ := hproper.tidy.exists_orderly hnone
        obtain ⟨e, he, hrender⟩ := hreads
        rw [(Site.render_eq_ok_iff.1 hrender.symm).2.2.1]
        have hown := own_of_fresh (hfresh hwrites) (List.mem_of_getElem? he)
        refine ⟨hown, horderly.traces.free_of_own hown hwriting fun hleft => ?_,
          fun other b w hmem => absurd hmem (hwriting other b w)⟩
        obtain ⟨other, -, -, -, hspoil, -⟩ := horderly.spoilt _ hleft
        exact (run.not_mishap other).2 hspoil
    | _ => trivial

end Crew

namespace Site

variable {s : Site} {d : Disk} {mode : BuildMode}

/-- A build whose tag is fresh is a run of a crew that renders what is there, is tidy, and has
no mishaps. -/
theorem exists_proper_run (hfresh : mode.writes → s.Fresh (fun _ => Crew.tagOf mode) d)
    (available : Nat) : ∃ events c c',
      Crew.Run s mode (Crew.Proper s mode d) (Crew.start (s.config.jobBound available) d) events c ∧
      (∀ task, .lose task ∉ events ∧ .spoil task ∉ events) ∧
      c.disk = (s.renderAll mode d s.manifest.entries).1 ∧ Crew.Step s mode c .report c' ∧
      c'.disk = (s.build mode d).1 ∧ c'.report = some (s.build mode d).2 := by
  obtain ⟨events, c, c', hrun, hrest⟩ := s.exists_run_report mode available d
  obtain ⟨-, -, hnone, -⟩ := hrest.2.1.eq_report
  exact ⟨events, c, c', hrun.proper_of_alone hfresh hnone, hrun.not_mishap, hrest⟩

/-- What a build does whose tag is fresh, if it writes. -/
theorem effects_build (hroot : s.root.isAbsolute) (hnamed : d.WellNamed)
    (hfresh : mode.writes → s.Fresh (fun _ => Crew.tagOf mode) d) :
    Effects s d (s.build mode d).1 (s.build mode d).2 (fun _ => False) ∧
      (Reported d (s.build mode d).1 (s.build mode d).2.pruned ↔ ¬(mode.writes ∧
        s.config.prune ∧ s.BreaksOff (s.renderAll mode d s.manifest.entries).1)) := by
  obtain ⟨events, c, c', hrun, hmishap, hrendered, hstep, hdisk, hreport⟩ :=
    exists_proper_run hfresh 1
  have hspoil : ∀ task, .spoil task ∉ events := fun task => (hmishap task).2
  rw [← hdisk, ← hrendered]
  refine ⟨(hrun.tidy.effects hstep hreport hroot hnamed).mono fun l hl => ?_,
    (hrun.tidy.reported_iff hstep hreport hroot hspoil).trans (hstep.reported_iff hreport)⟩
  obtain ⟨task, -, -, -, hmem, -⟩ := hl
  exact hspoil task hmem

/-! ## A removal that breaks off -/

/-- A path to the directory `site` that first stays where it is for a number of steps. -/
def roundabout (n : Nat) : Path :=
  ⟨(List.replicate n ['.', '/']).flatten ++ "site".toList⟩

theorem steps_roundabout (n : Nat) : (roundabout n).steps = ["site".toList] := by
  induction n with
  | zero => decide
  | succ n ih =>
    have htext : (roundabout (n + 1)).text = ['.'] ++ '/' :: (roundabout n).text := rfl
    rw [Path.steps, htext, List.splitOn_append_cons_self, List.filter_append]
    exact ih

theorem size_roundabout (n : Nat) : (roundabout n).text.size = 2 * n + 4 := by
  induction n with
  | zero => decide
  | succ n ih =>
    have htext : (roundabout (n + 1)).text = ['.', '/'] ++ (roundabout n).text := rfl
    have hfirst : Text.size ['.', '/'] = 2 := by decide
    rw [htext, Text.size_append, ih, hfirst]
    omega

theorem mem_roundabout {n : Nat} {x : Char} (h : x ∈ (roundabout n).text) :
    x ∈ "./site".toList := by
  induction n with
  | zero => exact (by simp : ∀ x ∈ "site".toList, x ∈ "./site".toList) x h
  | succ n ih =>
    rcases List.mem_append.1 (show x ∈ ['.', '/'] ++ (roundabout n).text from h) with h | h
    · exact (by simp : ∀ x ∈ ['.', '/'], x ∈ "./site".toList) x h
    · exact ih h

theorem not_isAbsolute_roundabout (n : Nat) : ¬(roundabout n).isAbsolute := by
  cases n with
  | zero => decide
  | succ n => simp [Path.isAbsolute, roundabout, List.replicate_succ]

/-- A site without entries whose output directory is spelled in as many bytes as a path may
have, but for a few. -/
def farOutput : Site where
  root := .ofString "/p"
  config := { output := roundabout 2030, prune := true }
  manifest := ⟨[], []⟩
  globals := .empty

/-- A project with two old pages, one of them with a long name. -/
def oldPages : Disk :=
  .ofFiles [
    ("/p/site-description/out.txt", ""),
    ("/p/site/a-page-whose-name-is-somewhat-longer", "old\n"),
    ("/p/site/page", "old\n")]

theorem outputDir_farOutput : farOutput.outputDir = (Path.ofString "/p").join (roundabout 2030) :=
  rfl

theorem text_outputDir_farOutput : farOutput.outputDir.text =
    "/p/".toList ++ (roundabout 2030).text := by
  rw [outputDir_farOutput, Path.join, if_neg (not_isAbsolute_roundabout _)]
  rfl

/-- The path of a page of this site. -/
theorem text_farOutput {n : Text} (hn : n.IsName) :
    (farOutput.spelledBelow [n]).text = farOutput.outputDir.text ++ '/' :: n := by
  have hlast : farOutput.outputDir.text.getLast? = some 'e' := by
    rw [text_outputDir_farOutput, roundabout, ← List.append_assoc, List.getLast?_append]
    rfl
  rw [spelledBelow, List.foldl_cons, List.foldl_nil, Path.join,
    if_neg (Path.not_isAbsolute_of_name hn), if_neg (by rw [hlast]; decide)]

theorem steps_farOutput : farOutput.outputDir.steps = ["p".toList, "site".toList] := by
  rw [outputDir_farOutput, Path.steps_join (not_isAbsolute_roundabout _), steps_roundabout]
  decide

theorem size_outputDir_farOutput : farOutput.outputDir.text.size = 4067 := by
  have hfirst : Text.size "/p/".toList = 3 := by decide
  rw [text_outputDir_farOutput, Text.size_append, size_roundabout, hfirst]

theorem isAbsolute_farOutput : farOutput.outputDir.isAbsolute :=
  isAbsolute_outputDir rfl

theorem clean_farOutput : '\x00' ∉ farOutput.outputDir.text := by
  intro h
  rw [text_outputDir_farOutput] at h
  rcases List.mem_append.1 h with h | h
  · exact (by decide : '\x00' ∉ "/p/".toList) h
  · exact (by decide : '\x00' ∉ "./site".toList) (mem_roundabout h)

theorem place_farOutput : oldPages.place farOutput.outputDir = ["p".toList, "site".toList] := by
  rw [Disk.place_eq_foldl_steps, steps_farOutput, Disk.origin, if_pos isAbsolute_farOutput]
  decide

theorem isDirectory_farOutput : oldPages.isDirectory farOutput.outputDir := by
  refine Disk.isDirectory_of_reach (l := ["p".toList, "site".toList])
    ⟨clean_farOutput, fun hnil => ?_, ?_⟩ ?_
  · have hsize := size_outputDir_farOutput
    rw [hnil] at hsize
    cases hsize
  · rw [size_outputDir_farOutput]
    decide
  · rw [steps_farOutput, Disk.origin, if_pos isAbsolute_farOutput]
    decide +kernel

/-- The path of a page is usable if the name of the page is short. -/
theorem isUsable_farOutput {n : Text} (hn : n.IsName) (hclean : '\x00' ∉ n)
    (hsize : n.size ≤ 27) : Disk.IsUsable (farOutput.spelledBelow [n]) := by
  have htext := text_farOutput hn
  refine ⟨?_, ?_, ?_⟩ <;> rw [htext]
  · rw [List.mem_append, List.mem_cons, not_or, not_or]
    exact ⟨clean_farOutput, by decide, hclean⟩
  · exact List.append_ne_nil_of_right_ne_nil _ (List.cons_ne_nil _ _)
  · have hslash : Char.utf8Size '/' = 1 := by decide
    rw [Text.size_append, size_outputDir_farOutput, Text.size_cons, hslash]
    show 4067 + (1 + n.size) ≤ 4095
    omega

theorem prunable_farOutput : farOutput.Prunable oldPages := by
  refine (prunable_iff rfl).2 ⟨isDirectory_farOutput, ?_⟩
  rintro ⟨dir, hdir, hin⟩
  rw [normal_outputDir rfl oldPages, place_farOutput] at hin
  exact (by decide : ∀ dir ∈ farOutput.sourceDirs,
    ¬liesIn dir.normal (Disk.normalOf ["p".toList, "site".toList])) dir hdir hin

/-- Both pages are stale, and the one with the short name comes first. -/
theorem stale_farOutput : farOutput.stale oldPages (oldPages.place farOutput.outputDir) =
    [["page".toList], ["a-page-whose-name-is-somewhat-longer".toList]] := by
  have hbelow : namesBelow oldPages ["p".toList, "site".toList] =
      [["page".toList], ["a-page-whose-name-is-somewhat-longer".toList]] := by
    decide +kernel
  have hnames : ∀ names ∈ [["page".toList], ["a-page-whose-name-is-somewhat-longer".toList]],
      (∀ n ∈ names, Text.IsName n) ∧ names.dropLast = [] := by
    decide
  rw [place_farOutput, stale, hbelow, List.filter_eq_self]
  intro names hmem
  obtain ⟨hname, hnil⟩ := hnames names hmem
  refine decide_eq_true ⟨⟨hname, ?_⟩, rfl⟩
  rw [hnil]
  exact isDirectory_farOutput

/-- The page with the short name can be removed. -/
theorem isFile_farOutput : oldPages.isFile (farOutput.spelledBelow ["page".toList]) := by
  have hname : ∀ n ∈ ["page".toList], Text.IsName n := by decide
  have hsize : ∀ n ∈ ["page".toList], Text.size n ≤ Disk.nameLimit := by decide
  have hfile : oldPages.node? (oldPages.place farOutput.outputDir ++ ["page".toList]) =
      some (.file "old\n".toUTF8) := by
    rw [place_farOutput]
    decide +kernel
  have hfind := Disk.find?_foldl_join (Path.text_ne_nil_of_isAbsolute isAbsolute_farOutput)
    isDirectory_farOutput hname hsize (isUsable_farOutput (by decide) (by decide) (by decide))
    (by rw [hfile]; rfl)
  rw [← place_spelledBelow hname] at hfile hfind
  exact Disk.isFile_iff.2 ⟨_, Disk.read_eq_ok_iff.2 ⟨hfind, hfile⟩⟩

/-- No page with a long name can be removed. -/
theorem not_isFile_farOutput {n : Text} (hn : n.IsName) (hsize : 27 < n.size) (d : Disk) :
    ¬d.isFile (farOutput.spelledBelow [n]) := by
  intro hfile
  obtain ⟨x, hx⟩ := Disk.isFile_iff.1 hfile
  obtain ⟨hfind, -⟩ := Disk.read_eq_ok_iff.1 hx
  have hlimit : (farOutput.spelledBelow [n]).text.size ≤ 4095 :=
    (Disk.find?_eq_ok_iff.1 hfind).1.2.2
  have hslash : Char.utf8Size '/' = 1 := by decide
  rw [text_farOutput hn, Text.size_append, size_outputDir_farOutput, Text.size_cons,
    hslash] at hlimit
  omega

theorem breaksOff_farOutput : farOutput.BreaksOff oldPages :=
  ⟨prunable_farOutput, _, _, congrArg (List.map farOutput.spelledBelow) stale_farOutput,
    isFile_farOutput, _, List.mem_singleton_self _,
    not_isFile_farOutput (by decide) (by decide) oldPages⟩

theorem wellNamed_oldPages : oldPages.WellNamed := by
  decide +kernel

/-- A build of this site goes well and removes a page, but then comes to one whose path is too
long, and it does not report what it has removed. -/
theorem pruned_unreported : (farOutput.build (.write []) oldPages).2.isOk ∧
    ¬Reported oldPages (farOutput.build (.write []) oldPages).1
      (farOutput.build (.write []) oldPages).2.pruned := by
  have hroot : farOutput.root.isAbsolute := rfl
  have hfresh : farOutput.Fresh (fun _ => Crew.tagOf (.write [])) oldPages :=
    ⟨nofun, nofun, nofun⟩
  have hreported := (effects_build hroot wellNamed_oldPages fun _ => hfresh).2
  have hentries : farOutput.manifest.entries = [] := rfl
  rw [hentries, renderAll] at hreported
  dsimp only at hreported
  have hbreaks : (BuildMode.write []).writes ∧ farOutput.config.prune ∧
    farOutput.BreaksOff oldPages := ⟨rfl, rfl, breaksOff_farOutput⟩
  refine ⟨?_, fun h => hreported.1 h hbreaks⟩
  rw [build_eq, hentries, renderAll]
  rfl

end Site

end Folio
