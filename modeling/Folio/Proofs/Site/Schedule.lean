import Mathlib.Data.List.Sort
import Folio.Proofs.Site.Crew
import Folio.Proofs.Site.DryRun

/-!
# A build is a run of a crew

`Site.build` renders and writes the entries one after another. That is one of the orders in
which a crew may do it : `Site.exists_run_build` is a run of a crew that has one worker in
flight at a time and loses none (`Crew.Alone`), leaves the disk that the build leaves, and
makes the same report. The run is put together from those of single entries. Each comes back
to a crew at rest (`Crew.resting`), with one more result that is not collected yet.

So what is known of all runs of a crew is known of the build. `Crew.run_accounts` says that
no entry is lost and none is reported twice, in any run of a crew.
-/

namespace Folio

namespace Writer

variable {d : Disk} {w : Writer} {result : Except SystemError Unit}

/-- A writer that is done does nothing. -/
theorem run_of_result? (h : w.result? = some result) (d : Disk) (n : Nat) : w.run d n = (d, w) := by
  induction n with
  | zero => rfl
  | succ n ih =>
    obtain ⟨target, temporary, contents, phase⟩ := w
    cases phase with
    | done r => exact ih
    | _ => cases h

theorem stepsLeft_ne_zero (h : w.result? = none) : w.stepsLeft ≠ 0 := by
  obtain ⟨target, temporary, contents, phase⟩ := w
  cases phase with
  | done r => cases h
  | _ => exact Nat.succ_ne_zero _

end Writer

namespace Crew

open Site

variable {s : Site} {mode : BuildMode} {allowed allowed' : Crew → Event → Prop}
  {c c' c'' : Crew} {events events' : List Event} {event : Event}

/-! ## Putting runs together -/

theorem Run.mono (h : Run s mode allowed c events c')
    (hallowed : ∀ c event, allowed c event → allowed' c event) :
    Run s mode allowed' c events c' := by
  induction h with
  | nil => exact .nil c
  | snoc run ok step ih => exact .snoc ih (hallowed _ _ ok) step

theorem Run.trans (h : Run s mode allowed c events c') (h' : Run s mode allowed c' events' c'') :
    Run s mode allowed c (events ++ events') c'' := by
  induction h' with
  | nil => rwa [List.append_nil]
  | snoc run ok step ih =>
    rw [← List.append_assoc]
    exact .snoc ih ok step

/-- Whether a run leads from one state to another. -/
def Leads (s : Site) (mode : BuildMode) (allowed : Crew → Event → Prop) (c c' : Crew) : Prop :=
  ∃ events, Run s mode allowed c events c'

theorem Leads.trans (h : Leads s mode allowed c c') (h' : Leads s mode allowed c' c'') :
    Leads s mode allowed c c'' := by
  obtain ⟨events, hrun⟩ := h
  obtain ⟨events', hrun'⟩ := h'
  exact ⟨_, hrun.trans hrun'⟩

theorem Leads.of_step (hstep : Step s mode c event c') (ok : allowed c event) :
    Leads s mode allowed c c' :=
  ⟨_, .snoc (.nil c) ok hstep⟩

/-! ## One worker at a time -/

/-- The tag of a mode that writes. -/
def tagOf : BuildMode → Text
  | .write tag => tag
  | .dryRun => []

/-- Whether a worker that renders its entry gives what the disk gives at that time. -/
def Reads (s : Site) (c : Crew) : Event → Prop
  | .render task _ result => ∃ e, s.manifest.entries[task]? = some e ∧ result = s.render c.disk e
  | _ => True

/-- Whether an event may happen in a build that has one worker at a time, all of them with
one tag, and none of them dies or fails half way. -/
def Alone (s : Site) (mode : BuildMode) (c : Crew) : Event → Prop
  | .render task tag result => c.busy = [(task, .rendering)] ∧
      Reads s c (.render task tag result) ∧ tag = tagOf mode
  | .spoil _ => False
  | .lose _ => False
  | _ => True

/-- A worker that is alone reads what is there. -/
theorem Alone.reads (h : Alone s mode c event) : Reads s c event := by
  cases event with
  | render task tag result => exact h.2.1
  | _ => trivial

/-- A writer that is the only worker in flight is done in the end. -/
theorem leads_writing {task n : Nat} {a : Artifact} {w : Writer} (hn : w.stepsLeft ≤ n)
    (hundone : w.result? = none) (hbusy : c.busy = [(task, .writing a w)]) :
    ∃ result, (w.run c.disk n).2.result? = some result ∧
      Leads s mode (Alone s mode) c
        ({ c with disk := (w.run c.disk n).1 }.leave [] task (some (written a result))) := by
  induction n generalizing c w with
  | zero => exact absurd (Nat.le_zero.1 hn) (Writer.stepsLeft_ne_zero hundone)
  | succ n ih =>
    have hsplit : c.busy = [] ++ (task, .writing a w) :: [] := hbusy
    have hrun : w.run c.disk (n + 1) = (w.step c.disk).2.run (w.step c.disk).1 n := rfl
    have hleft : (w.step c.disk).2.stepsLeft ≤ n := by
      have := Writer.stepsLeft_step_le c.disk w
      omega
    rw [hrun]
    cases hdone : (w.step c.disk).2.result? with
    | some result =>
      rw [Writer.run_of_result? hdone]
      exact ⟨result, hdone, .of_step (.conclude hsplit rfl hdone) trivial⟩
    | none =>
      have hproceed : Step s mode c (.write task) { c with
          disk := (w.step c.disk).1
          busy := [(task, .writing a (w.step c.disk).2)] } := .proceed hsplit rfl hdone
      obtain ⟨result, hresult, hleads⟩ := ih (c := { c with
        disk := (w.step c.disk).1
        busy := [(task, .writing a (w.step c.disk).2)] }) hleft hdone rfl
      exact ⟨result, hresult, (Leads.of_step hproceed trivial).trans hleads⟩

/-- A worker that is the only one in flight comes to the result that its entry has in a
build. -/
theorem leads_render {task : Nat} {e : Entry} (he : s.manifest.entries[task]? = some e)
    (hbusy : c.busy = [(task, .rendering)]) :
    Leads s mode (Alone s mode) c
      ({ c with disk := (s.renderEntry c.disk mode e).1 }.leave [] task
        (some (s.renderEntry c.disk mode e).2)) := by
  have hsplit : c.busy = [] ++ (task, .rendering) :: [] := hbusy
  have hanswer := answers_render he c.disk
  have hreads : ∀ tag, Reads s c (.render task tag (s.render c.disk e)) := fun _ => ⟨e, he, rfl⟩
  have hsettle : (∀ a, s.render c.disk e = .ok a → ¬(mode.writes ∧ a.isChanged)) →
      Leads s mode (Alone s mode) c (c.leave [] task (some (s.render c.disk e))) := fun h =>
    .of_step (.settle hsplit hanswer h) ⟨hbusy, hreads _, rfl⟩
  cases mode with
  | dryRun =>
    rw [renderEntry_dryRun]
    exact hsettle fun a _ hwrites => Bool.noConfusion hwrites.1
  | write tag =>
    cases hrender : s.render c.disk e with
    | error reason =>
      rw [renderEntry_of_error hrender, ← hrender]
      refine hsettle fun a ha => ?_
      rw [hrender] at ha
      cases ha
    | ok a =>
      by_cases hchanged : a.isChanged
      · rw [hrender] at hanswer hreads
        have hbegin : Step s (.write tag) c (.render task tag (.ok a))
            { c with busy := [(task, .writing a (.start a.output tag a.contents))] } :=
          .begin hsplit hanswer rfl hchanged
        obtain ⟨result, hresult, hleads⟩ := @leads_writing s (.write tag)
          { c with busy := [(task, .writing a (.start a.output tag a.contents))] } task _ a _
          (Nat.le_refl _) rfl rfl
        rw [renderEntry_of_isChanged hrender hchanged, ← (render_eq_ok_iff.1 hrender).2.2.1]
        cases hreplace : c.disk.replaceFile a.output tag a.contents with
        | mk d result' =>
          obtain ⟨rfl, hresult'⟩ := Disk.run_of_replaceFile hreplace
          obtain rfl : result = result' := Option.some.inj (hresult.symm.trans hresult')
          exact (Leads.of_step hbegin ⟨hbusy, hreads _, rfl⟩).trans hleads
      · rw [UpToDate.renderEntry ⟨a, hrender, hchanged⟩]
        refine hsettle fun b hb hwrites => hchanged ?_
        rw [hrender] at hb
        obtain rfl := Except.ok.inj hb
        exact hwrites.2

/-- Results with their tasks, which are numbered from `k`. -/
def numbered (k : Nat) (results : List (Except SiteError Artifact)) :
    List (Nat × Except SiteError Artifact) :=
  (results.zipIdx k).map Prod.swap

theorem numbered_cons (k : Nat) (result : Except SiteError Artifact)
    (results : List (Except SiteError Artifact)) :
    numbered k (result :: results) = (k, result) :: numbered (k + 1) results :=
  rfl

/-- What the workers gave that have ended one after another, the latest first. -/
def endedOf (k : Nat) (results : List (Except SiteError Artifact)) :
    List (Nat × Report.Outcome) :=
  ((numbered k results).map fun x => (x.1, some x.2)).reverse

/-- A crew that has no worker in flight, and all the results so far before it. -/
def resting (permits : Nat) (d : Disk) (results : List (Except SiteError Artifact)) : Crew where
  disk := d
  permits := permits
  holding := false
  started := results.length
  busy := []
  ended := endedOf 0 results
  pending := List.range results.length
  results := []
  report := none

theorem resting_concat (permits : Nat) (d : Disk) (results : List (Except SiteError Artifact))
    (result : Except SiteError Artifact) : resting permits d (results ++ [result]) =
      { resting permits d results with
        started := results.length + 1
        ended := (results.length, some result) :: endedOf 0 results
        pending := List.range results.length ++ [results.length] } := by
  have hended : endedOf 0 (results ++ [result]) =
      (results.length, some result) :: endedOf 0 results := by
    simp [endedOf, numbered, List.zipIdx_append]
  unfold resting
  rw [hended, List.length_append, List.length_singleton, List.range_succ]

/-- One entry more. -/
theorem leads_entry {permits : Nat} {d : Disk} {results : List (Except SiteError Artifact)}
    {e : Entry} (he : s.manifest.entries[results.length]? = some e) :
    Leads s mode (Alone s mode) (resting (permits + 1) d results)
      (resting (permits + 1) (s.renderEntry d mode e).1
        (results ++ [(s.renderEntry d mode e).2])) := by
  have hleft : results.length < s.manifest.entries.length := (List.getElem?_eq_some_iff.1 he).1
  have hacquire : Step s mode (resting (permits + 1) d results) .acquire
      { resting permits d results with holding := true } :=
    .acquire hleft rfl (Nat.succ_pos permits)
  have hspawn : Step s mode { resting permits d results with holding := true } .spawn
      { resting permits d results with
        started := results.length + 1
        pending := List.range results.length ++ [results.length]
        busy := [(results.length, .rendering)] } := .spawn rfl
  have hrender := @leads_render s mode { resting permits d results with
    started := results.length + 1
    pending := List.range results.length ++ [results.length]
    busy := [(results.length, .rendering)] } results.length e he rfl
  refine ((Leads.of_step hacquire trivial).trans (.of_step hspawn trivial)).trans ?_
  rw [resting_concat]
  exact hrender

/-- All entries, one after another. -/
theorem leads_entries {permits : Nat} {d : Disk} {results : List (Except SiteError Artifact)}
    {before after : List Entry} (hentries : s.manifest.entries = before ++ after)
    (hlength : results.length = before.length) :
    Leads s mode (Alone s mode) (resting (permits + 1) d results)
      (resting (permits + 1) (s.renderAll mode d after).1
        (results ++ (s.renderAll mode d after).2)) := by
  induction after generalizing d results before with
  | nil =>
    rw [renderAll, List.append_nil]
    exact ⟨[], .nil _⟩
  | cons e rest ih =>
    have he : s.manifest.entries[results.length]? = some e := by
      rw [hentries, hlength, List.getElem?_append_right (Nat.le_refl _), Nat.sub_self]
      rfl
    have hrest := @ih (s.renderEntry d mode e).1 (results ++ [(s.renderEntry d mode e).2])
      (before ++ [e]) (by rw [hentries, List.append_assoc]; rfl) (by simp [hlength])
    rw [List.append_assoc] at hrest
    exact (leads_entry he).trans hrest

/-- The workers that have ended are met, the first one first. -/
theorem leads_joins {k : Nat} {results : List (Except SiteError Artifact)}
    (hall : c.started = s.manifest.entries.length) (hended : c.ended = endedOf k results)
    (hpending : c.pending = List.range' k results.length) :
    Leads s mode (Alone s mode) c
      { c with ended := [], pending := [], results := c.results ++ numbered k results } := by
  induction results generalizing c k with
  | nil =>
    obtain ⟨d, permits, holding, started, busy, ended, pending, met, report⟩ := c
    obtain rfl : ended = [] := hended
    obtain rfl : pending = [] := hpending
    rw [show numbered k [] = [] from rfl, List.append_nil]
    exact ⟨[], .nil _⟩
  | cons result rest ih =>
    have hsplit : c.ended = endedOf (k + 1) rest ++ (k, some result) :: [] := by
      rw [hended, endedOf, numbered_cons, List.map_cons, List.reverse_cons]
      rfl
    have hcollect : Step s mode c (.join k) _ := .collect hall hsplit
    have hrest := @ih { c with
      ended := endedOf (k + 1) rest ++ []
      pending := c.pending.erase k
      results := c.results ++ [(k, result)] } (k + 1) hall (List.append_nil _) (by
        rw [hpending, List.length_cons, List.range'_succ, List.erase_cons_head])
    rw [List.append_assoc] at hrest
    exact (Leads.of_step hcollect trivial).trans hrest

/-! ## The report -/

theorem mergeSort_numbered (k : Nat) (results : List (Except SiteError Artifact)) :
    (numbered k results).mergeSort (fun x y => x.1 ≤ y.1) = numbered k results := by
  have hfst : (numbered k results).map Prod.fst = List.range' k results.length := by
    rw [numbered, List.map_map]
    exact List.zipIdx_map_snd k results
  have hsorted : ((numbered k results).map Prod.fst).Pairwise (· < ·) := by
    rw [hfst]
    exact List.pairwise_lt_range'
  refine List.mergeSort_of_pairwise ((List.pairwise_map.1 hsorted).imp fun hlt => ?_)
  exact decide_eq_true (Nat.le_of_lt hlt)

theorem failures_numbered {m : Manifest} {k : Nat} {results : List (Except SiteError Artifact)}
    (hlength : k + results.length ≤ m.entries.length) :
    (numbered k results).filterMap (failure? m) =
      ((m.entries.drop k).zip (results.map some)).filterMap fun (e, o) => Report.failure? e o := by
  induction results generalizing k with
  | nil => rw [List.map_nil, List.zip_nil_right]; rfl
  | cons result rest ih =>
    rw [List.length_cons] at hlength
    have hk : k < m.entries.length := by omega
    have hone : failure? m (k, result) = Report.failure? m.entries[k] (some result) := by
      unfold failure?
      cases result with
      | ok a => rfl
      | error reason =>
        dsimp only
        rw [List.getElem?_eq_getElem hk]
        rfl
    rw [numbered_cons, List.drop_eq_getElem_cons hk, List.map_cons, List.zip_cons_cons,
      List.filterMap_cons, List.filterMap_cons, hone, ih (by omega)]

/-- The report on results in their order. -/
theorem assemble_numbered {m : Manifest} {results : List (Except SiteError Artifact)}
    (hlength : results.length = m.entries.length) (pruned : List Path) :
    assemble m (numbered 0 results) pruned = .ofOutcomes m (results.map some) pruned := by
  have hsnd : (numbered 0 results).map Prod.snd = results := by
    rw [numbered, List.map_map]
    exact List.zipIdx_map_fst 0 results
  have hartifacts : (numbered 0 results).filterMap (fun x => x.2.toOption) =
      (results.map some).filterMap Report.artifact? := by
    have hboth : Report.artifact? ∘ some = Except.toOption := funext fun result => by
      cases result <;> rfl
    rw [List.filterMap_map, hboth, ← hsnd, List.filterMap_map, hsnd]
    rfl
  rw [assemble, Report.ofOutcomes, hartifacts, failures_numbered (by omega), List.drop_zero]

/-- Once all entries are done the workers are met, and then the report can be made. -/
theorem leads_report {permits : Nat} {d : Disk} {results : List (Except SiteError Artifact)}
    (hlength : results.length = s.manifest.entries.length) :
    ∃ c c', Leads s mode (Alone s mode) (resting permits d results) c ∧ c.disk = d ∧
      Step s mode c .report c' ∧ c'.disk = (s.pruneAfter mode d).1 ∧
      c'.report = some (.ofOutcomes s.manifest (results.map some) (s.pruneAfter mode d).2) := by
  let met : Crew :=
    { resting permits d results with ended := [], pending := [], results := numbered 0 results }
  have hjoins : Leads s mode (Alone s mode) (resting permits d results) met :=
    leads_joins hlength rfl List.range_eq_range'
  have hcollected : met.collected = numbered 0 results := by
    rw [collected, List.map_nil, List.append_nil, mergeSort_numbered]
  refine ⟨met, _, hjoins, rfl, .report hlength rfl rfl rfl, rfl, ?_⟩
  show some (assemble s.manifest met.collected _) = _
  rw [hcollected, assemble_numbered hlength]
  rfl

end Crew

/-- Some run of a crew with one worker at a time comes to the disk that the entries leave
when they are rendered one after another, and then leaves what a build leaves and makes the
same report. -/
theorem Site.exists_run_report (s : Site) (mode : BuildMode) (available : Nat) (d : Disk) :
    ∃ events c c', Crew.Run s mode (Crew.Alone s mode)
        (Crew.start (s.config.jobBound available) d) events c ∧
      c.disk = (s.renderAll mode d s.manifest.entries).1 ∧ Crew.Step s mode c .report c' ∧
      c'.disk = (s.build mode d).1 ∧ c'.report = some (s.build mode d).2 := by
  obtain ⟨permits, hpermits⟩ : ∃ permits, s.config.jobBound available = permits + 1 :=
    Nat.exists_eq_succ_of_ne_zero (Nat.ne_of_gt (Nat.le_max_left _ _))
  have hlength := @length_renderAll s d mode s.manifest.entries
  have hentries := @Crew.leads_entries s mode permits d [] [] s.manifest.entries rfl rfl
  obtain ⟨c, c', hmet, hrendered, hstep, hdisk, hmade⟩ := @Crew.leads_report s mode (permits + 1)
    (s.renderAll mode d s.manifest.entries).1 _ hlength
  obtain ⟨events, hrun⟩ := hentries.trans hmet
  rw [hpermits, build_eq]
  exact ⟨events, c, c', hrun, hrendered, hstep, hdisk, hmade⟩

/-- Some run of a crew with one worker at a time leaves what a build leaves and makes the
same report. -/
theorem Site.exists_run_build (s : Site) (mode : BuildMode) (available : Nat) (d : Disk) :
    ∃ events c, Crew.Run s mode (Crew.Alone s mode)
        (Crew.start (s.config.jobBound available) d) events c ∧
      c.disk = (s.build mode d).1 ∧ c.report = some (s.build mode d).2 := by
  obtain ⟨events, c, c', hrun, -, hstep, hdisk, hreport⟩ := s.exists_run_report mode available d
  have hlast : Crew.Alone s mode c .report := trivial
  exact ⟨_, c', hrun.snoc hlast hstep, hdisk, hreport⟩

namespace Crew

variable {s : Site} {mode : BuildMode} {allowed : Crew → Event → Prop} {c c' : Crew}
  {events : List Event}

/-- Every event of a run was allowed when it happened. -/
theorem Run.exists_allowed (h : Run s mode allowed c events c') {event : Event}
    (hmem : event ∈ events) : ∃ c₀, allowed c₀ event := by
  induction h with
  | nil => cases hmem
  | @snoc c₁ _ _ _ run ok step ih =>
    rcases List.mem_append.1 hmem with hmem | hmem
    · exact ih hmem
    · rw [← List.mem_singleton.1 hmem] at ok
      exact ⟨c₁, ok⟩

/-- No worker of a crew with one worker at a time dies or fails half way. -/
theorem Run.not_mishap (h : Run s mode (Alone s mode) c events c') (task : Nat) :
    .lose task ∉ events ∧ .spoil task ∉ events :=
  ⟨fun hmem => (h.exists_allowed hmem).elim fun _ => id,
    fun hmem => (h.exists_allowed hmem).elim fun _ => id⟩

/-- Over every run of a crew, whatever order its workers end in and whichever of them die or
fail : never more workers are in flight than the configuration allows, a report is there only
when none is, and then it accounts for all entries and nothing happens any more. A run comes
to its report, since it cannot go on for ever and can always go on until then, without any
worker dying or failing half way. A build is a run in which none does. -/
theorem run_accounts (s : Site) (mode : BuildMode) (available : Nat) (d : Disk) :
    let bound := s.config.jobBound available
    (∀ events c, Run s mode (fun _ _ => True) (start bound d) events c →
      1 ≤ bound ∧ c.busy.length ≤ bound ∧
      (∀ r, c.report = some r → c.busy = [] ∧ c.ended = [] ∧
        (∀ event c', ¬Step s mode c event c') ∧
        ∃ built failed, Accounts s events built failed r) ∧
      (c.report = none →
        ∃ event c', Step s mode c event c' ∧ ∀ task, event ≠ .lose task ∧ event ≠ .spoil task) ∧
      events.length ≤ 9 * s.manifest.entries.length + 1) ∧
    ∃ events c, Run s mode (fun _ _ => True) (start bound d) events c ∧
      (∀ task, .lose task ∉ events ∧ .spoil task ∉ events) ∧
      c.disk = (s.build mode d).1 ∧ c.report = some (s.build mode d).2 := by
  intro bound
  have hpositive : 1 ≤ bound := Nat.le_max_left _ _
  refine ⟨fun events c h => ?_, ?_⟩
  · obtain ⟨gone, hsound⟩ := h.sound
    refine ⟨hpositive, ?_, fun r hr => ?_, hsound.exists_step mode hpositive, ?_⟩
    · have := hsound.permits
      omega
    · obtain ⟨hbusy, hended, -⟩ := hsound.reported r hr
      refine ⟨hbusy, hended, fun event c' hstep => ?_, hsound.exists_accounts hr⟩
      exact absurd (hr.symm.trans (hsound.report_eq_none hstep)) nofun
    · have hlength := h.length_le
      have hleft := hsound.left
      unfold remaining at hlength
      cases hholding : c.holding with
      | false =>
        rw [hholding] at hlength
        exact Nat.le_trans (Nat.le_add_right _ _) hlength
      | true =>
        rw [hholding] at hlength hleft
        simp only [Bool.toNat_true] at hlength hleft
        omega
  · obtain ⟨events, c, hrun, hdisk, hreport⟩ := s.exists_run_build mode available d
    exact ⟨events, c, hrun.mono fun _ _ _ => trivial, hrun.not_mishap, hdisk, hreport⟩

/-- A site with two entries, a line that is skipped, and two workers. -/
def twoPages : Site where
  root := .ofString "/p"
  config := { jobs := some 2 }
  manifest := ⟨[⟨.ofString "a", .copy, .ofString "a", 1⟩, ⟨.ofString "b", .copy, .ofString "b", 2⟩],
    [⟨3, ['c']⟩]⟩
  globals := .empty

/-- What the second entry of this site gives. -/
def secondPage : Artifact where
  entry := ⟨.ofString "b", .copy, .ofString "b", 2⟩
  output := .ofString "/p/site/b"
  contents := .empty
  previous := none
  chain := []
  warnings := []

/-- The worker of the first entry dies while that of the second one is in flight, and the
second one is met first. -/
theorem run_accounts_twoPages : ∃ events c r built failed,
    Run twoPages .dryRun (fun _ _ => True) (start (twoPages.config.jobBound 1) .empty) events c ∧
    .lose 0 ∈ events ∧ c.report = some r ∧ Accounts twoPages events built failed r ∧
    0 ∈ failed := by
  have hspawned : Run twoPages .dryRun (fun _ _ => True)
      (start (twoPages.config.jobBound 1) .empty) [.acquire, .spawn, .acquire, .spawn]
      ⟨.empty, 0, false, 2, [(1, .rendering), (0, .rendering)], [], [0, 1], [], none⟩ :=
    .snoc (.snoc (.snoc (.snoc (.nil _) trivial (.acquire (by decide) rfl (by decide))) trivial
      (.spawn rfl)) trivial (.acquire (by decide) rfl (by decide))) trivial (.spawn rfl)
  have hended : Run twoPages .dryRun (fun _ _ => True)
      (start (twoPages.config.jobBound 1) .empty)
      ([.acquire, .spawn, .acquire, .spawn] ++ [.lose 0] ++ [.render 1 [] (.ok secondPage)])
      ⟨.empty, 2, false, 2, [], [(1, some (.ok secondPage)), (0, none)], [0, 1], [], none⟩ :=
    .snoc (.snoc hspawned trivial
      (.lose (show _ = [(1, Job.rendering)] ++ (0, Job.rendering) :: [] from rfl))) trivial
      (.settle (show _ = [] ++ (1, Job.rendering) :: [] from rfl) ⟨rfl, rfl⟩
        fun _ _ hwrites => Bool.noConfusion hwrites.1)
  have hmet : Run twoPages .dryRun (fun _ _ => True)
      (start (twoPages.config.jobBound 1) .empty) _
      ⟨.empty, 2, false, 2, [], [], [0], [(1, .ok secondPage)], none⟩ :=
    .snoc (.snoc hended trivial (.collect rfl
      (show _ = [] ++ (1, some (.ok secondPage)) :: [(0, none)] from rfl))) trivial
      (.miss rfl (show _ = [] ++ (0, none) :: [] from rfl))
  have hreported := hmet.snoc trivial (.report rfl rfl rfl rfl)
  obtain ⟨-, -, hreport, -⟩ := (run_accounts twoPages .dryRun 1 .empty).1 _ _ hreported
  obtain ⟨-, -, -, built, failed, haccounts⟩ := hreport _ rfl
  refine ⟨_, _, _, built, failed, hreported, ?_, rfl, haccounts, haccounts.lost 0 ?_⟩ <;> simp

end Crew

end Folio
