import Folio.Proofs.Site.Readers

/-!
# Building again after a crew

A build that goes well and leaves alone what it reads can be repeated (`Site.settled_build`).
The same holds of a crew whose workers render what is there and do not disturb one another
(`Crew.Proper`), in whatever order they end. After a run that goes well and has left alone what
it reads (`Crew.Undisturbed`) its artifacts are given again (`Crew.settled`), its outputs hold
them exactly if artifacts at one place agree (`Crew.read_outputs_iff`), and the site is loaded
again (`Crew.load_report`).

Two things are kept from step to step. What a worker has rendered is given on the disk of any
later time, since nothing that it has read is touched (`Crew.Run.gives`). And an output that was
written holds its artifact, since it is written again with the same contents only
(`Crew.Run.read_output`).
-/

namespace Folio

/-- A file is read again after a step of a writer that writes the same in its place, if it
writes there at all. -/
theorem Writer.read_step {d : Disk} {w : Writer} {p : Path} {x : ByteArray} (hready : w.Ready d)
    (hp : d.read p = .ok x) (htemporary : d.place w.temporary ≠ d.place p)
    (hsame : (w.step d).2.result? = some (.ok ()) → d.place w.target = d.place p →
      w.contents = x) : (w.step d).1.read p = .ok x := by
  have hframe := frame_step d w
  have hplace : ∀ q, (w.step d).1.place q = d.place q := Disk.place_congr hframe.current
  by_cases htouched : d.place p = d.place w.target ∧ (w.step d).2.result? = some (.ok ())
  · obtain ⟨heq, hdone⟩ := htouched
    obtain ⟨htarget, -, hcontents⟩ := step_same d w
    obtain ⟨-, hnode⟩ := Disk.read_eq_ok_iff.1 (hready.step.read hdone)
    rw [htarget, hcontents, hsame hdone heq.symm, hplace, ← heq, ← hplace] at hnode
    refine Disk.read_eq_ok_iff.2 ⟨?_, hnode⟩
    rw [hplace] at hnode ⊢
    exact hframe.find? (Disk.read_eq_ok_iff.1 hp).1 (by rw [hnode]; rfl)
  · refine hframe.read hp ?_
    rintro (heq | htouch)
    · exact htemporary heq.symm
    · exact htouched htouch

namespace Crew

variable {s : Site} {mode : BuildMode} {bound : Nat} {events more : List Event} {event : Event}
  {c c' : Crew} {d : Disk} {r : Report} {allowed : Crew → Event → Prop}
  {left : Location → Prop} {a : Artifact} {p : Path}

/-! ## What a run touches -/

/-- Whether a worker has rendered an artifact. -/
def Rendered (events : List Event) (a : Artifact) : Prop :=
  ∃ task tag, .render task tag (.ok a) ∈ events

/-- Whether a location is the place of a temporary file. -/
def Temporary (d : Disk) (events : List Event) (l : Location) : Prop :=
  ∃ task tag a, .render task tag (.ok a) ∈ events ∧ a.isChanged ∧
    l = d.place (Writer.temporaryFor a.output tag)

/-- Whether a location is the place of a temporary file, or of an output that may be
written. -/
def Touched (d : Disk) (events : List Event) (l : Location) : Prop :=
  Temporary d events l ∨ ∃ a, Rendered events a ∧ a.isChanged ∧ l = d.place a.output

theorem Rendered.mono (h : Rendered events a) (hmore : ∀ event ∈ events, event ∈ more) :
    Rendered more a := by
  obtain ⟨task, tag, hrender⟩ := h
  exact ⟨task, tag, hmore _ hrender⟩

theorem Temporary.mono {l : Location} (h : Temporary d events l)
    (hmore : ∀ event ∈ events, event ∈ more) : Temporary d more l := by
  obtain ⟨task, tag, a, hrender, ha⟩ := h
  exact ⟨task, tag, a, hmore _ hrender, ha⟩

theorem Touched.mono {l : Location} (h : Touched d events l)
    (hmore : ∀ event ∈ events, event ∈ more) : Touched d more l :=
  h.imp (Temporary.mono · hmore) fun ⟨a, ha, hl⟩ => ⟨a, ha.mono hmore, hl⟩

/-- What a worker was given is listed in the manifest. -/
theorem Sound.of_built {gone : List Nat} (h : Sound s bound events gone c) (ha : c.Built a) :
    s.Lists a ∧ Rendered events a := by
  obtain ⟨task, hmem⟩ := ha
  have hexplained : Explained s events task (.ok a) := hmem.elim (h.ended _) (h.results _)
  obtain ⟨⟨hentry, houtput⟩, tag, hrender⟩ := hexplained
  exact ⟨⟨List.mem_of_getElem? hentry, houtput⟩, task, tag, hrender⟩

/-- What is known of a writer in flight. -/
theorem Orderly.writer (h : Orderly s mode d events c left) {task : Nat} {w : Writer}
    (hmem : (task, .writing a w) ∈ c.busy) :
    a.isChanged ∧ w.Ready c.disk ∧ w.contents = a.contents ∧
      c.disk.place w.target = d.place a.output ∧ s.Own d (c.disk.place w.temporary) ∧
      ∃ tag, .render task tag (.ok a) ∈ events ∧
        c.disk.place w.temporary = d.place (Writer.temporaryFor a.output tag) := by
  have hwriter := h.traces.writers task a w hmem
  have hplace : ∀ q, c.disk.place q = d.place q := Disk.place_congr h.traces.current
  obtain ⟨-, -, tag, hrender, htemporary⟩ := h.named task a w hmem
  refine ⟨hwriter.changed, hwriter.placed.ready (h.undone task a w hmem), hwriter.contents, ?_,
    ?_, tag, hrender, ?_⟩
  · rw [hwriter.target, hplace]
  · rw [hplace]
    exact hwriter.own
  · rw [htemporary, hplace]

/-- What a step of a tidy crew touches. -/
theorem Orderly.frame (h : Orderly s mode d events c left) (hstep : Step s mode c event c')
    (hreport : c'.report = none) :
    Disk.Frame (Touched d events) (Temporary d events) c.disk c'.disk := by
  have hwriter : ∀ {before after : List (Nat × Job)} {task a w disk w'},
      c.busy = before ++ (task, .writing a w) :: after → w.step c.disk = (disk, w') →
      Disk.Frame (Touched d events) (Temporary d events) c.disk disk := by
    intro before after task a w disk w' hbusy hstep
    obtain ⟨hchanged, -, -, htarget, -, tag, hrender, htemporary⟩ :=
      h.writer (mem_of_eq_append_cons hbusy)
    have hframe := Writer.frame_step c.disk w
    rw [hstep, htarget, htemporary] at hframe
    have htemp : Temporary d events (d.place (Writer.temporaryFor a.output tag)) :=
      ⟨task, tag, a, hrender, hchanged, rfl⟩
    refine hframe.mono ?_ ?_
    · rintro l (rfl | ⟨rfl, -⟩)
      · exact Or.inl htemp
      · exact Or.inr ⟨a, ⟨task, tag, hrender⟩, hchanged, rfl⟩
    · rintro l rfl
      exact htemp
  cases hstep with
  | proceed busy step => exact hwriter busy step
  | conclude busy step => exact hwriter busy step
  | @spoil before after task a w disk kept rest busy part step =>
    obtain ⟨hchanged, -, -, -, -, tag, hrender, htemporary⟩ := h.writer (mem_of_eq_append_cons busy)
    have hframe := (Disk.writeFile_eq_ok (Writer.spoil_eq_some step)).2
    rw [htemporary] at hframe
    refine hframe.mono ?_ fun l => False.elim
    rintro l rfl
    exact Or.inl ⟨task, tag, a, hrender, hchanged, rfl⟩
  | report => cases hreport
  | _ => exact Disk.Frame.refl _ _ _

/-- What a tidy run touches until its report. -/
theorem Run.frame (h : Run s mode (Tidy s mode d) (start bound d) events c)
    (hreport : c.report = none) :
    Disk.Frame (Touched d events) (Temporary d events) d c.disk := by
  induction h with
  | nil => exact Disk.Frame.refl _ _ d
  | @snoc c₀ c₁ events event run ok step ih =>
    have hnone := step.report_eq_none hreport
    obtain ⟨left, horderly⟩ := run.exists_orderly hnone
    have hmore : ∀ e ∈ events, e ∈ events ++ [event] := fun e => List.mem_append_left _
    have hmono := fun {d₀ d₁} (h : Disk.Frame (Touched d events) (Temporary d events) d₀ d₁) =>
      h.mono (fun l hl => hl.mono hmore) fun l hl => hl.mono hmore
    exact (hmono (ih hnone)).trans (hmono (horderly.frame step hreport))

/-! ## What is kept -/

/-- What was rendered is given at any later time, if nothing that was read is touched. -/
theorem Run.gives (h : Run s mode (Proper s mode d) (start bound d) events c)
    (hreport : c.report = none)
    (hapart : ∀ a, Rendered events a → ∀ p ∈ a.chain, ¬Touched d events (d.place p)) :
    ∀ a, Rendered events a → s.Gives c.disk a := by
  induction h with
  | nil => exact fun a ⟨task, tag, hmem⟩ => nomatch hmem
  | @snoc c₀ c₁ events event run ok step ih =>
    have hnone := step.report_eq_none hreport
    obtain ⟨left, horderly⟩ := run.tidy.exists_orderly hnone
    have hmore : ∀ e ∈ events, e ∈ events ++ [event] := fun e => List.mem_append_left _
    have hframe := horderly.frame step hreport
    have hold : ∀ a, Rendered events a → s.Gives c₀.disk a :=
      ih hnone fun a ha p hp hl => hapart a (ha.mono hmore) p hp (hl.mono hmore)
    -- The step keeps what is given before it.
    have hkept : ∀ a, Rendered (events ++ [event]) a → s.Gives c₀.disk a → s.Gives c₁.disk a := by
      intro a ha hgives
      refine hgives.of_read hframe.current fun p hp x hx => hframe.read hx fun hl => ?_
      rw [Disk.place_congr horderly.traces.current] at hl
      exact hapart a ha p hp (hl.mono hmore)
    intro a ha
    refine hkept a ha ?_
    obtain ⟨task, tag, hmem⟩ := ha
    rcases List.mem_append.1 hmem with hmem | hmem
    · exact hold a ⟨task, tag, hmem⟩
    · obtain rfl := List.mem_singleton.1 hmem
      obtain ⟨e, -, hrender⟩ := ok.1
      exact (Site.render_eq_ok_iff.1 hrender.symm).1

/-- What stands at an output is read again after a step of a tidy crew, if the writers in
flight write the same there. -/
theorem Orderly.read_step {b : Artifact} {x : ByteArray} (h : Orderly s mode d events c left)
    (hstep : Step s mode c event c') (hreport : c'.report = none) (hb : s.Lists b)
    (hread : c.disk.read b.output = .ok x)
    (hsame : ∀ task a w, (task, .writing a w) ∈ c.busy → d.place a.output = d.place b.output →
      a.contents = x) : c'.disk.read b.output = .ok x := by
  have hplace : ∀ q, c.disk.place q = d.place q := Disk.place_congr h.traces.current
  have hapart : ∀ {task a w}, (task, .writing a w) ∈ c.busy →
      c.disk.place w.temporary ≠ c.disk.place b.output := by
    intro task a w hmem
    obtain ⟨-, -, -, -, hown, -⟩ := h.writer hmem
    rw [hplace b.output, hb.output]
    exact hown.apart b.entry hb.entry
  have hwriter : ∀ {before after : List (Nat × Job)} {task a w disk w'},
      c.busy = before ++ (task, .writing a w) :: after → w.step c.disk = (disk, w') →
      disk.read b.output = .ok x := by
    intro before after task a w disk w' hbusy hstep
    have hmem : (task, .writing a w) ∈ c.busy := mem_of_eq_append_cons hbusy
    obtain ⟨-, hready, hcontents, htarget, -⟩ := h.writer hmem
    have hnext := Writer.read_step hready hread (hapart hmem) fun _ heq => by
      rw [htarget, hplace] at heq
      exact hcontents.trans (hsame task a w hmem heq)
    rwa [hstep] at hnext
  cases hstep with
  | proceed busy step => exact hwriter busy step
  | conclude busy step => exact hwriter busy step
  | spoil busy part step =>
    refine (Disk.writeFile_eq_ok (Writer.spoil_eq_some step)).2.read hread ?_
    exact Ne.symm (hapart (mem_of_eq_append_cons busy))
  | report => cases hreport
  | _ => exact hread

/-- What the workers gave that have ended stands at their outputs, if artifacts at one place
agree. -/
theorem Run.read_output (h : Run s mode (Proper s mode d) (start bound d) events c)
    (hwrites : mode.writes) (hreport : c.report = none)
    (hagree : ∀ a, Rendered events a → ∀ b, Rendered events b →
      d.place a.output = d.place b.output → a.contents = b.contents) :
    ∀ a, c.Built a → c.disk.read a.output = .ok a.contents := by
  induction h with
  | nil => exact fun a ⟨task, hmem⟩ => hmem.elim nofun nofun
  | @snoc c₀ c₁ events event run ok step ih =>
    have hnone := step.report_eq_none hreport
    obtain ⟨left, horderly⟩ := run.tidy.exists_orderly hnone
    obtain ⟨gone, hsound⟩ := run.sound
    have hmore : ∀ e ∈ events, e ∈ events ++ [event] := fun e => List.mem_append_left _
    rintro a ⟨task, hgave⟩
    rcases step.gave hgave with hold | ⟨tag, rfl, hunwritten, hdisk⟩ | ⟨w, hmem, hdisk, hdone⟩
    · have hbuilt : c₀.Built a := ⟨task, hold⟩
      obtain ⟨hlisted, hrendered⟩ := hsound.of_built hbuilt
      have hread := ih hnone (fun a ha b hb => hagree a (ha.mono hmore) b (hb.mono hmore)) a hbuilt
      refine horderly.read_step step hreport hlisted hread fun other b w hmem => ?_
      obtain ⟨-, -, -, -, -, tag, hrender, -⟩ := horderly.writer hmem
      exact hagree b (Rendered.mono ⟨other, tag, hrender⟩ hmore) a (hrendered.mono hmore)
    · -- The output of an artifact that is not changed holds it already.
      obtain ⟨e, -, hrender⟩ := ok.1
      obtain ⟨-, -, houtput, hprevious⟩ := Site.render_eq_ok_iff.1 hrender.symm
      have hheld : a.previous = some a.contents := Classical.byContradiction fun hne =>
        hunwritten ⟨hwrites, Site.isChanged_iff.2 hne⟩
      rw [hheld, ← houtput] at hprevious
      rw [hdisk]
      exact toOption_eq_some_iff.1 hprevious.symm
    · have hwriter := horderly.traces.writers task a w hmem
      have hready := (hwriter.placed.ready (horderly.undone task a w hmem)).step
      obtain ⟨htarget, -, hcontents⟩ := Writer.step_same c₀.disk w
      rw [← hdisk, ← hwriter.target, ← hwriter.contents, ← htarget, ← hcontents]
      exact hready.read hdone

/-! ## Each worker renders once -/

/-- Workers in flight have different tasks. -/
theorem Sound.nodup_busy {gone : List Nat} (h : Sound s bound events gone c) :
    (c.busy.map Prod.fst).Nodup := by
  have hpending := (List.nodup_append.1 (h.tasks.nodup_iff.2 List.nodup_range)).1
  rw [← h.waiting.nodup_iff, List.append_assoc] at hpending
  exact (List.nodup_append.1 hpending).1

/-- A worker that has yet to render was at that before, or is new. -/
theorem Step.rendering (hstep : Step s mode c event c') {task : Nat}
    (h : (task, .rendering) ∈ c'.busy) : (task, .rendering) ∈ c.busy ∨ task = c.started := by
  cases hstep with
  | spawn =>
    rcases List.mem_cons.1 h with heq | hmem
    · exact Or.inr (Prod.mk.inj heq).1
    · exact Or.inl hmem
  | settle busy | conclude busy | spoil busy | lose busy =>
    rw [busy]
    exact Or.inl (mem_append_cons h)
  | begin busy | proceed busy =>
    rw [busy]
    exact Or.inl (mem_append_cons (mem_of_mem_append_cons h nofun))
  | _ => exact Or.inl h

theorem Step.started_le (hstep : Step s mode c event c') : c.started ≤ c'.started := by
  cases hstep with
  | spawn => exact Nat.le_succ c.started
  | _ => exact Nat.le_refl c.started

/-- The worker that renders in a step was in flight, and is at something else then. -/
theorem Step.of_render {gone : List Nat} (h : Sound s bound events gone c) {task : Nat}
    {tag : Text} {result : Except SiteError Artifact}
    (hstep : Step s mode c (.render task tag result) c') :
    (task, .rendering) ∈ c.busy ∧ (task, .rendering) ∉ c'.busy := by
  have hnodup := h.nodup_busy
  cases hstep with
  | settle busy | begin busy =>
    refine ⟨mem_of_eq_append_cons busy, fun hmem => ?_⟩
    rw [busy, List.map_append, List.map_cons, List.nodup_middle, ← List.map_append] at hnodup
    refine (List.nodup_cons.1 hnodup).1 (List.mem_map_of_mem (f := Prod.fst) ?_)
    first
      | exact hmem
      | exact mem_of_mem_append_cons hmem nofun

/-- What is known of the entries that were rendered : their workers are at something else, and
none of them was rendered twice. -/
structure Once (c : Crew) (events : List Event) : Prop where
  past : ∀ task tag result, .render task tag result ∈ events →
    task < c.started ∧ (task, .rendering) ∉ c.busy
  unique : ∀ task tag tag' result result', .render task tag result ∈ events →
    .render task tag' result' ∈ events → result = result'

theorem Run.once (h : Run s mode allowed (start bound d) events c) : Once c events := by
  induction h with
  | nil => exact ⟨fun _ _ _ => (absurd · List.not_mem_nil),
      fun _ _ _ _ _ hmem _ => absurd hmem List.not_mem_nil⟩
  | @snoc c₀ c₁ events event run ok step ih =>
    obtain ⟨gone, hsound⟩ := run.sound
    have hold : ∀ task tag result, .render task tag result ∈ events →
        task < c₁.started ∧ (task, .rendering) ∉ c₁.busy := by
      intro task tag result hmem
      obtain ⟨hlt, hpast⟩ := ih.past task tag result hmem
      refine ⟨Nat.lt_of_lt_of_le hlt step.started_le, fun hrendering => ?_⟩
      exact (step.rendering hrendering).elim hpast (Nat.ne_of_lt hlt)
    by_cases hrender : ∃ task tag result, event = .render task tag result
    · obtain ⟨task, tag, result, rfl⟩ := hrender
      obtain ⟨hbefore, hafter⟩ := step.of_render hsound
      have hfirst : ∀ tag' result', .render task tag' result' ∉ events := fun tag' result' hmem =>
        (ih.past task tag' result' hmem).2 hbefore
      refine ⟨fun other tag' result' hmem => ?_, fun other tag₁ tag₂ x y hx hy => ?_⟩
      · rcases List.mem_append.1 hmem with hmem | hmem
        · exact hold other tag' result' hmem
        · cases List.mem_singleton.1 hmem
          exact ⟨Nat.lt_of_lt_of_le (hsound.lt_started hbefore) step.started_le, hafter⟩
      · rcases List.mem_append.1 hx with hx | hx <;> rcases List.mem_append.1 hy with hy | hy
        · exact ih.unique other tag₁ tag₂ x y hx hy
        · cases List.mem_singleton.1 hy
          exact absurd hx (hfirst _ _)
        · cases List.mem_singleton.1 hx
          exact absurd hy (hfirst _ _)
        · cases List.mem_singleton.1 hx
          cases List.mem_singleton.1 hy
          rfl
    · have hevents : ∀ {task tag result}, .render task tag result ∈ events ++ [event] →
          .render task tag result ∈ events := fun hmem =>
        (List.mem_append.1 hmem).resolve_right fun hlast =>
          hrender ⟨_, _, _, (List.mem_singleton.1 hlast).symm⟩
      exact ⟨fun task tag result hmem => hold task tag result (hevents hmem),
        fun task tag tag' x y hx hy => ih.unique task tag tag' x y (hevents hx) (hevents hy)⟩

/-! ## Reports -/

section Reports

variable (h : Run s mode allowed (start bound d) events c)
  (hstep : Step s mode c .report c') (hr : c'.report = some r)
include h hstep hr

/-- What is reported was given by a worker that has ended. -/
theorem Run.built_of_mem (ha : a ∈ r.artifacts) :
    c.Built a ∧ s.Lists a ∧ Rendered events a := by
  obtain ⟨-, -, -, -, hreport⟩ := hstep.eq_report
  obtain rfl := Option.some.inj (hreport.symm.trans hr)
  obtain ⟨⟨task, result⟩, hmem, hresult⟩ := List.mem_filterMap.1 ha
  cases result with
  | error reason => cases hresult
  | ok b =>
    obtain rfl : b = a := Option.some.inj hresult
    have hbuilt : c.Built b := ⟨task, Or.inr ((mem_collected.1 hmem).resolve_right nofun)⟩
    obtain ⟨gone, hsound⟩ := h.sound
    exact ⟨hbuilt, hsound.of_built hbuilt⟩

/-- Without failures all that was rendered is reported. -/
theorem Run.mem_artifacts (hok : r.isOk) (ha : Rendered events a) : a ∈ r.artifacts := by
  obtain ⟨task, tag, hrender⟩ := ha
  have honce := h.once
  obtain ⟨gone, hsound⟩ := h.sound
  have hlt : task < s.manifest.entries.length :=
    Nat.lt_of_lt_of_le (honce.past task tag _ hrender).1
      (Nat.le_trans (Nat.le_add_right _ _) hsound.left)
  obtain ⟨b, hb⟩ := h.exists_result hstep hr hok (List.getElem?_eq_getElem hlt)
  obtain ⟨-, tag', hrender'⟩ := hsound.results _ hb
  obtain rfl : a = b := Except.ok.inj (honce.unique task tag tag' _ _ hrender hrender')
  obtain ⟨-, -, -, -, hreport⟩ := hstep.eq_report
  obtain rfl := Option.some.inj (hreport.symm.trans hr)
  exact List.mem_filterMap.2 ⟨_, mem_collected.2 (Or.inl hb), rfl⟩

/-- Without failures each entry has its artifact. -/
theorem Run.entries_artifacts (hok : r.isOk) :
    r.artifacts.map Artifact.entry = s.manifest.entries := by
  obtain ⟨gone, hsound⟩ :=
    ((h.mono fun _ _ _ => trivial : Run s mode (fun _ _ => True) _ _ _).snoc trivial hstep).sound
  obtain ⟨built, failed, haccounts⟩ := hsound.exists_accounts hr
  have hfailures : r.failures = [] := List.isEmpty_iff.1 hok
  have hfailed := haccounts.failures
  rw [hfailures] at hfailed
  have honce := haccounts.once
  rw [List.forall₂_nil_right_iff.1 hfailed, List.append_nil] at honce
  have hbuilt : built = List.range s.manifest.entries.length :=
    honce.eq_of_pairwise (fun _ _ _ _ hlt hgt => absurd hlt (Nat.lt_asymm hgt))
      haccounts.built_ordered List.pairwise_lt_range
  have hartifacts := haccounts.artifacts
  rw [hbuilt] at hartifacts
  have hlength := hartifacts.length_eq
  rw [List.length_range] at hlength
  refine List.ext_getElem (by rw [List.length_map, hlength]) fun i hi hi' => ?_
  rw [List.length_map] at hi
  obtain ⟨hentry, -⟩ := hartifacts.get (by rwa [List.length_range]) hi
  rw [List.get_eq_getElem, List.get_eq_getElem, List.getElem_range,
    List.getElem?_eq_getElem hi'] at hentry
  rw [List.getElem_map]
  exact (Option.some.inj hentry).symm

end Reports

/-! ## Runs that do not disturb themselves -/

/-- Whether a run has left alone what it has read : the files that it writes are none of those,
its report takes none of them away, and its temporary files are at other places. -/
structure Undisturbed (s : Site) (d : Disk) (events : List Event) (c c' : Crew) (r : Report) :
    Prop where
  written : ∀ a ∈ r.changed, ∀ p ∈ r.sources s, d.place a.output ≠ d.place p
  pruned : ∀ p ∈ r.sources s, c'.disk.node? (d.place p) = none → c.disk.node? (d.place p) = none
  temporary : ∀ p ∈ r.sources s, ¬Temporary d events (d.place p)

/-- What the step to a report touches is what it prunes. -/
theorem Step.frame_report (hstep : Step s mode c .report c') :
    Disk.Frame (fun l => mode.writes ∧ s.config.prune ∧ s.Removes c.disk l)
      (fun l => mode.writes ∧ s.config.prune ∧ s.Removes c.disk l) c.disk c'.disk := by
  obtain ⟨-, -, -, hdisk, -⟩ := hstep.eq_report
  rw [hdisk]
  cases mode with
  | dryRun =>
    rw [Site.pruneAfter_dryRun]
    exact Disk.Frame.refl _ _ _
  | write tag =>
    exact (Site.frame_pruneAfter s tag c.disk).mono (fun l => And.intro rfl) fun l => And.intro rfl

/-- What a tidy run touches that has come to its report. -/
theorem frame_report (h : Run s mode (Tidy s mode d) (start bound d) events c)
    (hstep : Step s mode c .report c') :
    Disk.Frame
      (fun l => Touched d events l ∨ mode.writes ∧ s.config.prune ∧ s.Removes c.disk l)
      (fun l => Temporary d events l ∨ mode.writes ∧ s.config.prune ∧ s.Removes c.disk l)
      d c'.disk := by
  obtain ⟨-, -, hnone, -⟩ := hstep.eq_report
  exact ((h.frame hnone).mono (fun _ => Or.inl) fun _ => Or.inl).trans
    (hstep.frame_report.mono (fun _ => Or.inr) fun _ => Or.inr)

/-- What an undisturbed run has read is not pruned. -/
theorem Undisturbed.not_removed (hu : Undisturbed s d events c c' r)
    (hstep : Step s mode c .report c') (hp : p ∈ r.sources s) :
    ¬(mode.writes ∧ s.config.prune ∧ s.Removes c.disk (d.place p)) := by
  rintro ⟨hwrites, hprune, ⟨x, hx⟩, hnone⟩
  obtain ⟨-, -, -, hdisk, -⟩ := hstep.eq_report
  cases mode with
  | dryRun => cases hwrites
  | write tag =>
    have hgone := hu.pruned p hp
    rw [hdisk, Site.pruneAfter_write, if_pos hprune] at hgone
    rw [hgone hnone] at hx
    cases hx

section Again

variable (h : Run s mode (Proper s mode d) (start bound d) events c)
  (hstep : Step s mode c .report c') (hr : c'.report = some r) (hok : r.isOk)
include h hstep hr hok

/-- What an undisturbed run has read is not touched. -/
theorem Undisturbed.not_touched (hu : Undisturbed s d events c c' r) (hp : p ∈ r.sources s) :
    ¬Touched d events (d.place p) := by
  rintro (htemporary | ⟨a, ha, hchanged, heq⟩)
  · exact hu.temporary p hp htemporary
  · have hmem := h.mem_artifacts hstep hr hok ha
    exact hu.written a (List.mem_filter.2 ⟨hmem, hchanged⟩) p hp heq.symm

/-- The artifacts of an undisturbed run are given on the disk that it leaves. -/
theorem settled (hu : Undisturbed s d events c c' r) : s.Settled c'.disk r.artifacts := by
  obtain ⟨-, -, hnone, -⟩ := hstep.eq_report
  have hcurrent := (h.tidy.frame hnone).current
  have hsource : ∀ a ∈ r.artifacts, ∀ p ∈ a.chain, p ∈ r.sources s := fun a ha p hp =>
    List.mem_append_right _ (List.mem_flatMap.2 ⟨a, ha, hp⟩)
  refine ⟨h.entries_artifacts hstep hr hok,
    fun a ha => (h.built_of_mem hstep hr ha).2.1.output, fun a ha => ?_⟩
  have hgives : s.Gives c.disk a := by
    refine h.gives hnone (fun b hb p hp => ?_) a (h.built_of_mem hstep hr ha).2.2
    exact hu.not_touched h hstep hr hok (hsource b (h.mem_artifacts hstep hr hok hb) p hp)
  have hframe := hstep.frame_report
  refine hgives.of_read hframe.current fun p hp x hx => hframe.read hx ?_
  rw [Disk.place_congr hcurrent]
  exact hu.not_removed hstep (hsource a ha p hp)

/-- A site is loaded again after an undisturbed run. -/
theorem load_report (hu : Undisturbed s d events c c' r) (hroot : s.root.isAbsolute)
    (hload : Site.load d s.root = .ok s) : Site.load c'.disk s.root = .ok s := by
  refine Site.load_of_frame hload (Path.text_ne_nil_of_isAbsolute hroot)
    (frame_report h.tidy hstep) fun p hp => ?_
  have hsource : p ∈ r.sources s := List.mem_append_left _ hp
  exact not_or.2 ⟨hu.not_touched h hstep hr hok hsource, hu.not_removed hstep hsource⟩

/-- The outputs hold what was written there, exactly if artifacts at one place agree. -/
theorem read_outputs_iff (hwrites : mode.writes) (hroot : s.root.isAbsolute) :
    (∀ a ∈ r.artifacts, c'.disk.read a.output = .ok a.contents) ↔ r.Agrees d := by
  obtain ⟨-, -, hnone, -⟩ := hstep.eq_report
  have hframe := hstep.frame_report
  have hplace : ∀ p, c'.disk.place p = d.place p :=
    Disk.place_congr (hframe.current.trans (h.tidy.frame hnone).current)
  refine ⟨Report.agrees_of_read hplace, fun hagree a ha => ?_⟩
  obtain ⟨hbuilt, hlisted, -⟩ := h.built_of_mem hstep hr ha
  have hread := h.read_output hwrites hnone (fun a ha b hb => hagree a
    (h.mem_artifacts hstep hr hok ha) b (h.mem_artifacts hstep hr hok hb)) a hbuilt
  refine hframe.read hread fun ⟨_, _, hremoves⟩ => ?_
  rw [hlisted.output] at hremoves
  exact Site.not_exposes_of_output hroot hlisted.entry (Site.exposes_of_removes hremoves)

/-- After an undisturbed run whose artifacts agree a build has nothing to do. -/
theorem build_report (hwrites : mode.writes) (hu : Undisturbed s d events c c' r)
    (hroot : s.root.isAbsolute) (hagree : r.Agrees d) (again : Text) :
    s.build (.write again) c'.disk = (c'.disk,
      ⟨r.artifacts.map fun a => a.again c'.disk, [], s.manifest.skipped, []⟩) := by
  have hread := (read_outputs_iff h hstep hr hok hwrites hroot).2 hagree
  refine (settled h hstep hr hok hu).build_write hread ?_
  obtain ⟨-, -, -, hdisk, -⟩ := hstep.eq_report
  cases mode with
  | dryRun => cases hwrites
  | write tag =>
    rw [hdisk]
    exact Site.pruneAfter_pruneAfter s tag again c.disk

end Again

end Crew

end Folio
