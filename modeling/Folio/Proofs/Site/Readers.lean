import Folio.Proofs.Site.Schedule
import Folio.Proofs.Site.Traces

/-!
# Crews that render what is there

The workers of a crew may answer anything (`Site.Answers`). Here each of them answers what
its entry gives at that time (`Crew.Reads`). Then what holds of a build whose workers come
one after another holds of a crew, in whatever order its workers end.

`Crew.Run.still_iff` : a run in which no worker dies goes well and leaves the tree alone all
the time exactly if all entries are up to date and pruning removes nothing.
-/

namespace Folio

namespace Disk

variable {d d' : Disk}

theorem SameTree.symm (h : SameTree d d') : SameTree d' d :=
  ⟨h.current.symm, fun l => (h.node l).symm⟩

end Disk

theorem Writer.Ready.of_sameTree {d d' : Disk} {w : Writer} (h : w.Ready d)
    (hsame : Disk.SameTree d d') : w.Ready d' := by
  obtain ⟨target, temporary, contents, phase⟩ := w
  cases phase with
  | rename => exact (hsame.read_eq _).trans h
  | done result =>
    cases result with
    | ok _ => exact (hsame.read_eq _).trans h
    | error reason => trivial
  | _ => trivial

/-- An entry that is built is built on the same tree. -/
theorem Site.render_of_sameTree {s : Site} {d d' : Disk} {e : Entry} {a : Artifact}
    (h : s.render d e = .ok a) (hsame : Disk.SameTree d d') : s.render d' e = .ok a := by
  obtain ⟨hgives, hentry, houtput, hprevious⟩ := render_eq_ok_iff.1 h
  refine render_eq_ok_iff.2 ⟨hgives.of_read hsame.current fun p _ c hc => ?_, hentry, houtput, ?_⟩
  · rw [hsame.read_eq, hc]
  · rw [hsame.read_eq, hprevious]

namespace Crew

variable {s : Site} {mode : BuildMode} {bound : Nat} {events : List Event} {event : Event}
  {c c' : Crew} {d : Disk} {r : Report} {allowed : Crew → Event → Prop}

/-- What may happen to a tidy crew whose workers render what is there. -/
def Proper (s : Site) (mode : BuildMode) (d : Disk) (c : Crew) (event : Event) : Prop :=
  Reads s c event ∧ Tidy s mode d c event

theorem Run.tidy (h : Run s mode (Proper s mode d) (start bound d) events c) :
    Run s mode (Tidy s mode d) (start bound d) events c :=
  h.mono fun _ _ => And.right

/-! ## Reports without failures -/

/-- Results are reported without failures if all of them are artifacts. -/
theorem isOk_assemble_iff {m : Manifest} {l : List (Nat × Except SiteError Artifact)}
    {pruned : List Path} (hl : ∀ x ∈ l, x.1 < m.entries.length) :
    (assemble m l pruned).isOk ↔ ∀ x ∈ l, x.2.isOk := by
  refine List.isEmpty_iff.trans (List.filterMap_eq_nil_iff.trans (forall₂_congr fun x hx => ?_))
  obtain ⟨task, result⟩ := x
  cases result with
  | ok a => exact iff_of_true rfl rfl
  | error reason =>
    have he := List.getElem?_eq_getElem (hl _ hx)
    refine iff_of_false (fun hnone => ?_) nofun
    simp only [failure?, he] at hnone
    cases hnone

section Reports

variable (h : Run s mode allowed (start bound d) events c)
  (hstep : Step s mode c .report c') (hr : c'.report = some r)
include h hstep hr

omit hr in
/-- The report collects a result for each entry. -/
theorem Run.map_fst_collected :
    c.collected.map Prod.fst = List.range s.manifest.entries.length := by
  obtain ⟨gone, hsound⟩ := h.sound
  cases hstep with
  | report all => exact hsound.map_fst_collected all

/-- The report of a run is without failures if all workers gave artifacts. -/
theorem Run.isOk_iff :
    r.isOk ↔ (∀ x ∈ c.results, x.2.isOk) ∧ ∀ task, .lose task ∉ events := by
  obtain ⟨hbusy, hended, -, -, hreport⟩ := hstep.eq_report
  obtain rfl := Option.some.inj (hreport.symm.trans hr)
  obtain ⟨gone, hsound⟩ := h.sound
  rw [isOk_assemble_iff fun x hx => ?_]
  · constructor
    · intro hok
      refine ⟨fun x hx => hok x (mem_collected.2 (Or.inl hx)), fun task hlose => ?_⟩
      have hmem : (task, .error .worker) ∈ c.collected :=
        mem_collected.2 (Or.inr ⟨(hsound.pending_iff hbusy hended).2 hlose, rfl⟩)
      exact Bool.noConfusion (hok _ hmem)
    · rintro ⟨hok, hlose⟩ x hx
      rcases mem_collected.1 hx with hx | ⟨hpending, -⟩
      · exact hok x hx
      · exact absurd ((hsound.pending_iff hbusy hended).1 hpending) (hlose _)
  · refine List.mem_range.1 ?_
    rw [← h.map_fst_collected hstep]
    exact List.mem_map_of_mem hx

/-- Without failures each entry has an artifact as its result. -/
theorem Run.exists_result (hok : r.isOk) {task : Nat} {e : Entry}
    (he : s.manifest.entries[task]? = some e) : ∃ a, (task, .ok a) ∈ c.results := by
  obtain ⟨hresults, hlose⟩ := (h.isOk_iff hstep hr).1 hok
  obtain ⟨hbusy, hended, -⟩ := hstep.eq_report
  obtain ⟨gone, hsound⟩ := h.sound
  have hmem : task ∈ c.collected.map Prod.fst := by
    rw [h.map_fst_collected hstep]
    exact List.mem_range.2 (List.getElem?_eq_some_iff.1 he).1
  obtain ⟨⟨_, result⟩, hx, rfl⟩ := List.mem_map.1 hmem
  rcases mem_collected.1 hx with hx | ⟨hpending, -⟩
  · cases result with
    | ok a => exact ⟨a, hx⟩
    | error reason => exact Bool.noConfusion (hresults _ hx)
  · exact absurd ((hsound.pending_iff hbusy hended).1 hpending) (hlose _)

end Reports

/-! ## Crews that find nothing to do -/

/-- What is known of a crew to which all entries are up to date. -/
structure Quiet (d : Disk) (c : Crew) : Prop where
  disk : c.disk = d
  busy : ∀ x ∈ c.busy, x.2 = .rendering
  ended : ∀ task result, (task, some result) ∈ c.ended → result.isOk
  results : ∀ x ∈ c.results, x.2.isOk

theorem Quiet.step (h : Quiet d c) (huptodate : ∀ e ∈ s.manifest.entries, s.UpToDate d e)
    (hreads : Reads s c event) (hstep : Step s mode c event c') (hreport : c'.report = none) :
    Quiet d c' := by
  obtain ⟨hdisk, hbusy, hended, hresults⟩ := h
  -- A worker that renders gives an artifact that is not changed.
  have hunchanged : ∀ {task tag result}, Reads s c (.render task tag result) →
      ∃ a, result = .ok a ∧ ¬a.isChanged := by
    rintro task tag result ⟨e, he, rfl⟩
    rw [hdisk]
    exact huptodate e (List.mem_of_getElem? he)
  have hwriter : ∀ {before after : List (Nat × Job)} {task a w},
      c.busy ≠ before ++ (task, .writing a w) :: after := by
    intro before after task a w heq
    cases hbusy _ (mem_of_eq_append_cons heq)
  cases hstep with
  | acquire => exact ⟨hdisk, hbusy, hended, hresults⟩
  | spawn holding => exact ⟨hdisk, List.forall_mem_cons.2 ⟨rfl, hbusy⟩, hended, hresults⟩
  | settle busy =>
    obtain ⟨a, rfl, -⟩ := hunchanged hreads
    rw [busy] at hbusy
    refine ⟨hdisk, fun x hx => hbusy x (mem_append_cons hx), fun other result hmem => ?_, hresults⟩
    rcases List.mem_cons.1 hmem with heq | hmem
    · cases heq
      rfl
    · exact hended other result hmem
  | begin busy answer writes changed =>
    obtain ⟨a, ha, hnot⟩ := hunchanged hreads
    obtain rfl := Except.ok.inj ha
    exact absurd changed hnot
  | proceed busy | conclude busy | spoil busy => exact absurd busy hwriter
  | lose busy =>
    rw [busy] at hbusy
    refine ⟨hdisk, fun x hx => hbusy x (mem_append_cons hx), fun other result hmem => ?_, hresults⟩
    rcases List.mem_cons.1 hmem with heq | hmem
    · cases heq
    · exact hended other result hmem
  | collect all ended =>
    rw [ended] at hended
    refine ⟨hdisk, hbusy, fun other result hmem => hended other result (mem_append_cons hmem), ?_⟩
    refine List.forall_mem_append.2 ⟨hresults, List.forall_mem_singleton.2 ?_⟩
    exact hended _ _ List.mem_append_cons_self
  | miss all ended =>
    rw [ended] at hended
    exact ⟨hdisk, hbusy, fun other result hmem => hended other result (mem_append_cons hmem),
      hresults⟩
  | report => cases hreport

/-! ## Crews that leave the tree alone -/

theorem gave_leave {busy : List (Nat × Job)} {task other : Nat} {outcome : Report.Outcome}
    {a : Artifact} (h : (c.leave busy task outcome).Gave other a) :
    c.Gave other a ∨ other = task ∧ outcome = some (.ok a) := by
  rcases h with hmem | hmem
  · rcases List.mem_cons.1 hmem with heq | hmem
    · obtain ⟨rfl, rfl⟩ := Prod.mk.inj heq
      exact Or.inr ⟨rfl, rfl⟩
    · exact Or.inl (Or.inl hmem)
  · exact Or.inl (Or.inr hmem)

/-- An artifact that was given in a step was not to be written, or its writer is done. -/
theorem Step.gave (hstep : Step s mode c event c') {task : Nat} {a : Artifact}
    (h : c'.Gave task a) : c.Gave task a ∨
      (∃ tag, event = .render task tag (.ok a) ∧ ¬(mode.writes ∧ a.isChanged) ∧
        c'.disk = c.disk) ∨
      ∃ w, (task, .writing a w) ∈ c.busy ∧ (w.step c.disk).1 = c'.disk ∧
        (w.step c.disk).2.result? = some (.ok ()) := by
  cases hstep with
  | settle busy answer unwritten =>
    refine (gave_leave h).imp_right fun ⟨htask, ha⟩ => Or.inl ?_
    obtain rfl := htask
    obtain rfl := Option.some.inj ha
    exact ⟨_, rfl, unwritten a rfl, rfl⟩
  | @conclude before after other b w w' disk result busy step done =>
    refine (gave_leave h).imp_right fun ⟨htask, ha⟩ => Or.inr ?_
    obtain rfl := htask
    cases result with
    | error reason => cases ha
    | ok _ =>
      obtain rfl : b = a := Except.ok.inj (Option.some.inj ha)
      refine ⟨w, mem_of_eq_append_cons busy, congrArg Prod.fst step, ?_⟩
      rw [step]
      exact done
  | spoil => exact (gave_leave h).imp_right fun ⟨_, ha⟩ => nomatch ha
  | lose => exact (gave_leave h).imp_right fun ⟨_, ha⟩ => nomatch ha
  | @collect before after other result all ended =>
    refine Or.inl ?_
    rcases h with hmem | hmem
    · refine Or.inl ?_
      rw [ended]
      exact mem_append_cons hmem
    · rcases List.mem_append.1 hmem with hmem | hmem
      · exact Or.inr hmem
      · cases List.mem_singleton.1 hmem
        exact Or.inl (mem_of_eq_append_cons ended)
  | miss all ended =>
    refine Or.inl (h.imp_left fun hmem => ?_)
    rw [ended]
    exact mem_append_cons hmem
  | _ => exact Or.inl h

/-- What is known of a crew that has left the tree alone. -/
structure Told (s : Site) (d : Disk) (c : Crew) : Prop where
  writers : ∀ task a w, (task, .writing a w) ∈ c.busy → w.Ready d ∧ w.target = a.output ∧
    w.contents = a.contents ∧ ∃ e, s.manifest.entries[task]? = some e ∧ s.render d e = .ok a
  results : ∀ task a, c.Gave task a → ∃ e, s.manifest.entries[task]? = some e ∧ s.UpToDate d e

/-- The results of a crew that leaves the tree alone are those of entries that are up to
date. -/
theorem Told.gave (h : Told s d c) (hwrites : mode.writes) (hreads : Reads s c event)
    (hstep : Step s mode c event c') (hsame : Disk.SameTree d c.disk)
    (hsame' : Disk.SameTree d c'.disk) {task : Nat} {a : Artifact} (hgave : c'.Gave task a) :
    ∃ e, s.manifest.entries[task]? = some e ∧ s.UpToDate d e := by
  rcases hstep.gave hgave with hold | ⟨tag, rfl, hunwritten, -⟩ | ⟨w, hmem, hdisk, hdone⟩
  · exact h.results task a hold
  · obtain ⟨e, he, hrender⟩ := hreads
    exact ⟨e, he, a, Site.render_of_sameTree hrender.symm hsame.symm, fun hchanged =>
      hunwritten ⟨hwrites, hchanged⟩⟩
  · -- The output holds the contents now, and so it has held them before.
    obtain ⟨hready, htarget, hcontents, e, he, hrender⟩ := h.writers task a w hmem
    obtain ⟨htarget', -, hcontents'⟩ := Writer.step_same c.disk w
    have hread := (hready.of_sameTree hsame).step.read hdone
    rw [hdisk, htarget', htarget, hcontents', hcontents, hsame'.read_eq] at hread
    obtain ⟨-, -, houtput, hprevious⟩ := Site.render_eq_ok_iff.1 hrender
    rw [← houtput, hread] at hprevious
    exact ⟨e, he, a, hrender, fun hchanged => Site.isChanged_iff.1 hchanged hprevious⟩

theorem Told.step (h : Told s d c) (hwrites : mode.writes) (hreads : Reads s c event)
    (hstep : Step s mode c event c') (hsame : Disk.SameTree d c.disk)
    (hsame' : Disk.SameTree d c'.disk) (hreport : c'.report = none) : Told s d c' := by
  refine ⟨?_, fun task a => h.gave hwrites hreads hstep hsame hsame'⟩
  have hwriters := h.writers
  cases hstep with
  | spawn holding =>
    exact fun task a w hmem => hwriters task a w ((List.mem_cons.1 hmem).resolve_left nofun)
  | begin busy answer writes changed =>
    obtain ⟨e, he, hrender⟩ := hreads
    rw [busy] at hwriters
    exact forall_writing_middle hwriters
      ⟨trivial, rfl, rfl, e, he, Site.render_of_sameTree hrender.symm hsame.symm⟩
  | @proceed before after task a w w' disk busy step undone =>
    rw [busy] at hwriters
    obtain ⟨hready, htarget, hcontents, hrender⟩ := hwriters task a w List.mem_append_cons_self
    have hnext := (hready.of_sameTree hsame).step
    obtain ⟨htarget', -, hcontents'⟩ := Writer.step_same c.disk w
    rw [step] at hnext htarget' hcontents'
    exact forall_writing_middle hwriters ⟨hnext.of_sameTree hsame'.symm,
      htarget'.trans htarget, hcontents'.trans hcontents, hrender⟩
  | settle busy | conclude busy | spoil busy | lose busy =>
    rw [busy] at hwriters
    exact fun other a w hmem => hwriters other a w (mem_append_cons hmem)
  | report => cases hreport
  | _ => exact hwriters

theorem Run.told (hwrites : mode.writes)
    (h : Run s mode (fun c event => Reads s c event ∧ Disk.SameTree d c.disk) (start bound d)
      events c) (hsame : Disk.SameTree d c.disk) (hreport : c.report = none) : Told s d c := by
  induction h with
  | nil => exact ⟨nofun, fun _ _ h => h.elim nofun nofun⟩
  | snoc run ok step ih =>
    exact (ih ok.2 (step.report_eq_none hreport)).step hwrites ok.1 step ok.2 hsame hreport

/-- Whether a run leaves the tree alone all the time : before each of its events, before its
report, and after that. -/
structure Still (s : Site) (mode : BuildMode) (bound : Nat) (d : Disk) (events : List Event)
    (c c' : Crew) : Prop where
  run : Run s mode (fun c event => Reads s c event ∧ Disk.SameTree d c.disk) (start bound d)
    events c
  before : Disk.SameTree d c.disk
  after : Disk.SameTree d c'.disk

/-- A crew to which all entries are up to date leaves the tree alone. -/
theorem Run.quiet (h : Run s mode (Reads s) (start bound d) events c)
    (huptodate : ∀ e ∈ s.manifest.entries, s.UpToDate d e) (hreport : c.report = none) :
    Quiet d c ∧ Run s mode (fun c event => Reads s c event ∧ Disk.SameTree d c.disk)
      (start bound d) events c := by
  induction h with
  | nil => exact ⟨⟨rfl, nofun, nofun, nofun⟩, .nil _⟩
  | snoc run ok step ih =>
    obtain ⟨hquiet, hrun⟩ := ih (step.report_eq_none hreport)
    refine ⟨hquiet.step huptodate ok step hreport, hrun.snoc ⟨ok, ?_⟩ step⟩
    rw [hquiet.disk]
    exact Disk.SameTree.refl d

/-- What the step to a report does to the tree. -/
theorem Step.sameTree_iff (hwrites : mode.writes) (hstep : Step s mode c .report c') :
    Disk.SameTree c.disk c'.disk ↔ (s.config.prune → ∀ l, ¬s.Removes c.disk l) := by
  obtain ⟨-, -, -, hdisk, -⟩ := hstep.eq_report
  cases mode with
  | dryRun => cases hwrites
  | write tag =>
    rw [hdisk, Site.pruneAfter_write]
    split
    · rename_i hprune
      rw [← Site.sameTree_prune_iff]
      exact ⟨fun h _ => h, fun h => h hprune⟩
    · rename_i hprune
      exact iff_of_true (Disk.SameTree.refl _) fun h => absurd h hprune

/-- A run to which all entries are up to date, and in which no worker dies, goes well and does
no more than prune. -/
theorem Run.report_of_upToDate (h : Run s mode (Reads s) (start bound d) events c)
    (huptodate : ∀ e ∈ s.manifest.entries, s.UpToDate d e) (hlose : ∀ task, .lose task ∉ events)
    (hstep : Step s mode c .report c') (hr : c'.report = some r) :
    r.isOk ∧ c.disk = d ∧ c'.disk = (s.pruneAfter mode d).1 := by
  obtain ⟨-, -, hnone, hdisk, -⟩ := hstep.eq_report
  obtain ⟨hquiet, -⟩ := h.quiet huptodate hnone
  rw [hdisk, hquiet.disk]
  exact ⟨(h.isOk_iff hstep hr).2 ⟨hquiet.results, hlose⟩, rfl, rfl⟩

/-- A run that writes and in which no worker dies goes well and leaves the tree alone all the
time exactly if all entries are up to date and, where the output directory is pruned, no file
is removed. -/
theorem Run.still_iff (h : Run s mode (Reads s) (start bound d) events c)
    (hwrites : mode.writes) (hlose : ∀ task, .lose task ∉ events)
    (hstep : Step s mode c .report c') (hr : c'.report = some r) :
    r.isOk ∧ Still s mode bound d events c c' ↔
      (∀ e ∈ s.manifest.entries, s.UpToDate d e) ∧ (s.config.prune → ∀ l, ¬s.Removes d l) := by
  obtain ⟨-, -, hnone, -⟩ := hstep.eq_report
  constructor
  · rintro ⟨hok, hrun, hbefore, hafter⟩
    have htold := hrun.told hwrites hbefore hnone
    have huptodate : ∀ e ∈ s.manifest.entries, s.UpToDate d e := by
      intro e he
      obtain ⟨task, htask⟩ := List.mem_iff_getElem?.1 he
      obtain ⟨a, ha⟩ := h.exists_result hstep hr hok htask
      obtain ⟨e', he', h'⟩ := htold.results task a (Or.inr ha)
      obtain rfl := Option.some.inj (htask.symm.trans he')
      exact h'
    have hdisk := (h.quiet huptodate hnone).1.disk
    refine ⟨huptodate, ?_⟩
    have hsame := hstep.sameTree_iff hwrites
    rw [hdisk] at hsame
    exact hsame.1 hafter
  · rintro ⟨huptodate, hspared⟩
    obtain ⟨hok, hdisk, -⟩ := h.report_of_upToDate huptodate hlose hstep hr
    have hsame := hstep.sameTree_iff hwrites
    rw [hdisk] at hsame
    refine ⟨hok, (h.quiet huptodate hnone).2, ?_, hsame.2 hspared⟩
    rw [hdisk]
    exact Disk.SameTree.refl d

end Crew

end Folio
