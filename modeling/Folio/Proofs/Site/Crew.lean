import Mathlib.Data.List.Basic
import Mathlib.Data.List.Perm.Basic
import Folio.Proofs.Site.Entries
import Folio.Site.Crew

/-!
# Accounts of a crew

Workers end in any order, and one that dies does not say which entry it had. Still no
entry is lost, and none is reported twice (`Crew.Sound.exists_accounts`). Nor does a crew
get stuck before its report (`Crew.Sound.exists_step`), or go on for ever
(`Crew.Run.length_le`).

Between any two steps each task that was handed out has a result, or is in flight, or its
worker has ended and was not met, or its worker was lost and was met (`Crew.Sound`). The
tasks of the last kind are in no list of the crew, since nothing is learnt from a worker
that died; they are what is left pending at the end. Every step keeps this
(`Crew.Sound.step`), so that at the end the results and the pending tasks are all tasks,
each once, and to sort them puts them in the order of the manifest
(`Crew.Sound.map_fst_collected`).
-/

namespace Folio.Crew

variable {s : Site} {mode : BuildMode} {bound : Nat} {events : List Event} {event : Event}
  {gone : List Nat} {c c' : Crew}

/-! ## What is reported and why -/

/-- Why a worker that was not lost may have given a result. -/
def Explained (s : Site) (events : List Event) (task : Nat) : Except SiteError Artifact → Prop
  | .ok a => s.Answers task (.ok a) ∧ ∃ tag, .render task tag (.ok a) ∈ events
  | .error reason => reason ≠ .worker ∧
      ((∃ tag, .render task tag (.error reason) ∈ events) ∨
        ∃ tag a e, .render task tag (.ok a) ∈ events ∧ reason = .unwritable a.output e)

/-- Why a worker may have ended. -/
def Departed (s : Site) (events : List Event) (task : Nat) : Report.Outcome → Prop
  | some result => Explained s events task result
  | none => .lose task ∈ events

/-- How a report accounts for all entries after some events : the tasks `built` are those
of the artifacts, and `failed` are those of the failures. -/
structure Accounts (s : Site) (events : List Event) (built failed : List Nat) (r : Report) :
    Prop where
  /-- Each entry is reported once. -/
  once : (built ++ failed).Perm (List.range s.manifest.entries.length)
  built_ordered : built.Pairwise (· < ·)
  failed_ordered : failed.Pairwise (· < ·)
  /-- An artifact is what the worker of its entry has rendered. -/
  artifacts : List.Forall₂ (fun task a => s.manifest.entries[task]? = some a.entry ∧
    Explained s events task (.ok a)) built r.artifacts
  failures : List.Forall₂ (fun task f => s.manifest.entries[task]? = some f.entry ∧
    (f.error = .worker ↔ .lose task ∈ events) ∧
    (f.error ≠ .worker → Explained s events task (.error f.error))) failed r.failures
  /-- The entry of a worker that died is not missed. -/
  lost : ∀ task, .lose task ∈ events → task ∈ failed
  skipped : r.skipped = s.manifest.skipped

/-! ## Between two steps -/

/-- What is known between two steps; `gone` are the tasks of the workers that died and
were met. -/
structure Sound (s : Site) (bound : Nat) (events : List Event) (gone : List Nat) (c : Crew) :
    Prop where
  permits : c.permits + c.busy.length + c.holding.toNat = bound
  left : c.started + c.holding.toNat ≤ s.manifest.entries.length
  tasks : (c.pending ++ c.results.map Prod.fst).Perm (List.range c.started)
  waiting : (c.busy.map Prod.fst ++ c.ended.map Prod.fst ++ gone).Perm c.pending
  jobs : ∀ task a w, (task, .writing a w) ∈ c.busy → Explained s events task (.ok a)
  ended : ∀ x ∈ c.ended, Departed s events x.1 x.2
  results : ∀ x ∈ c.results, Explained s events x.1 x.2
  buried : ∀ task ∈ gone, .lose task ∈ events
  lost : ∀ task, .lose task ∈ events → (task, none) ∈ c.ended ∨ task ∈ gone
  reported : ∀ r, c.report = some r →
    c.busy = [] ∧ c.ended = [] ∧ c.started = s.manifest.entries.length ∧
      ∃ pruned, r = assemble s.manifest c.collected pruned

theorem sound_start (s : Site) (bound : Nat) (d : Disk) : Sound s bound [] [] (start bound d) where
  permits := rfl
  left := Nat.zero_le _
  tasks := .nil
  waiting := .nil
  jobs := nofun
  ended := nofun
  results := nofun
  buried := nofun
  lost := nofun
  reported := nofun

theorem Explained.mono {more : List Event} {task : Nat} {result : Except SiteError Artifact}
    (h : Explained s events task result) (hmore : ∀ event ∈ events, event ∈ more) :
    Explained s more task result := by
  cases result with
  | ok a => exact ⟨h.1, h.2.imp fun tag ht => hmore _ ht⟩
  | error reason =>
    refine ⟨h.1, h.2.imp (Exists.imp fun tag => hmore _) ?_⟩
    rintro ⟨tag, a, e, ha, he⟩
    exact ⟨tag, a, e, hmore _ ha, he⟩

theorem Departed.mono {more : List Event} {task : Nat} {outcome : Report.Outcome}
    (h : Departed s events task outcome) (hmore : ∀ event ∈ events, event ∈ more) :
    Departed s more task outcome := by
  cases outcome with
  | some result => exact Explained.mono h hmore
  | none => exact hmore _ h

theorem mem_append_cons {α : Type} {before after : List α} {x y : α}
    (h : x ∈ before ++ after) : x ∈ before ++ y :: after := by
  rcases List.mem_append.1 h with h | h
  · exact List.mem_append_left _ h
  · exact List.mem_append_right _ (List.mem_cons_of_mem y h)

theorem mem_of_eq_append_cons {α : Type} {l before after : List α} {x : α}
    (h : l = before ++ x :: after) : x ∈ l := by
  rw [h]
  exact List.mem_append_cons_self

theorem mem_of_mem_append_cons {α : Type} {before after : List α} {x y : α}
    (h : x ∈ before ++ y :: after) (hne : x ≠ y) : x ∈ before ++ after := by
  rcases List.mem_append.1 h with h | h
  · exact List.mem_append_left _ h
  · exact List.mem_append_right _ ((List.mem_cons.1 h).resolve_left hne)

namespace Sound

/-- A task in flight was handed out. -/
theorem lt_started (h : Sound s bound events gone c) {task : Nat} {job : Job}
    (hbusy : (task, job) ∈ c.busy) : task < c.started := by
  have hpending : task ∈ c.pending := by
    refine h.waiting.subset (List.mem_append_left _ (List.mem_append_left _ ?_))
    exact List.mem_map_of_mem hbusy
  exact List.mem_range.1 (h.tasks.subset (List.mem_append_left _ hpending))

theorem lt_of_busy (h : Sound s bound events gone c) {task : Nat} {job : Job}
    (hbusy : (task, job) ∈ c.busy) : task < s.manifest.entries.length :=
  Nat.lt_of_lt_of_le (h.lt_started hbusy) (Nat.le_trans (Nat.le_add_right _ _) h.left)

/-- An event that loses no worker does not change what is known. -/
theorem snoc (h : Sound s bound events gone c) (hlose : ∀ task, event ≠ .lose task) :
    Sound s bound (events ++ [event]) gone c := by
  have hmore : ∀ e ∈ events, e ∈ events ++ [event] := fun e => List.mem_append_left _
  refine { h with
    jobs := fun task a w hw => (h.jobs task a w hw).mono hmore
    ended := fun x hx => (h.ended x hx).mono hmore
    results := fun x hx => (h.results x hx).mono hmore
    buried := fun task ht => hmore _ (h.buried task ht)
    lost := fun task ht => h.lost task ?_ }
  rcases List.mem_append.1 ht with ht | ht
  · exact ht
  · exact absurd (List.mem_singleton.1 ht).symm (hlose task)

/-- Nothing that is known depends on the disk. -/
theorem disk (h : Sound s bound events gone c) (d : Disk) :
    Sound s bound events gone { c with disk := d } :=
  { h with }

/-- A worker ends. -/
theorem leave (h : Sound s bound events gone c) {before after : List (Nat × Job)} {task : Nat}
    {job : Job} (hbusy : c.busy = before ++ (task, job) :: after) {outcome : Report.Outcome}
    (hdeparted : Departed s (events ++ [event]) task outcome)
    (hlose : ∀ other, event = .lose other → other = task ∧ outcome = none) :
    Sound s bound (events ++ [event]) gone (c.leave (before ++ after) task outcome) := by
  have hmore : ∀ e ∈ events, e ∈ events ++ [event] := fun e => List.mem_append_left _
  have hpermits := h.permits
  have hwaiting := h.waiting
  rw [hbusy] at hpermits hwaiting
  constructor
  case permits =>
    simp only [Crew.leave, List.length_append, List.length_cons] at hpermits ⊢
    omega
  case left => exact h.left
  case tasks => exact h.tasks
  case waiting =>
    refine List.perm_iff_count.2 fun x => ?_
    have hcount := hwaiting.count_eq x
    simp only [Crew.leave, List.map_append, List.map_cons, List.count_append,
      List.count_cons] at hcount ⊢
    omega
  case jobs =>
    intro other a w hw
    refine (h.jobs other a w ?_).mono hmore
    rw [hbusy]
    exact mem_append_cons hw
  case ended =>
    intro x hx
    rcases List.mem_cons.1 hx with rfl | hx
    · exact hdeparted
    · exact (h.ended x hx).mono hmore
  case results => exact fun x hx => (h.results x hx).mono hmore
  case buried => exact fun other ho => hmore _ (h.buried other ho)
  case lost =>
    intro other ho
    rcases List.mem_append.1 ho with ho | ho
    · exact (h.lost other ho).imp_left (List.mem_cons_of_mem _)
    · obtain ⟨rfl, rfl⟩ := hlose other (List.mem_singleton.1 ho).symm
      exact Or.inl List.mem_cons_self
  case reported =>
    intro r hr
    obtain ⟨hnil, -⟩ := h.reported r hr
    rw [hnil] at hbusy
    cases (List.append_eq_nil_iff.1 hbusy.symm).2

/-- A worker in flight goes on to write. -/
theorem write (h : Sound s bound events gone c) {before after : List (Nat × Job)} {task : Nat}
    {job : Job} (hbusy : c.busy = before ++ (task, job) :: after) {a : Artifact} {w : Writer}
    (hexplained : Explained s events task (.ok a)) :
    Sound s bound events gone { c with busy := before ++ (task, .writing a w) :: after } := by
  have hpermits := h.permits
  have hwaiting := h.waiting
  rw [hbusy] at hpermits hwaiting
  refine { h with permits := ?_, waiting := ?_, jobs := ?_, reported := ?_ }
  · simpa only [List.length_append, List.length_cons] using hpermits
  · simpa only [List.map_append, List.map_cons] using hwaiting
  · intro other a' w' hw
    by_cases heq : (other, Job.writing a' w') = (task, .writing a w)
    · cases heq
      exact hexplained
    · refine h.jobs other a' w' ?_
      rw [hbusy]
      exact mem_append_cons (mem_of_mem_append_cons hw heq)
  · intro r hr
    obtain ⟨hnil, -⟩ := h.reported r hr
    rw [hnil] at hbusy
    cases (List.append_eq_nil_iff.1 hbusy.symm).2

/-- The next entry is handed out. -/
theorem spawn (h : Sound s bound events gone c) (hholding : c.holding = true) :
    Sound s bound events gone { c with
      holding := false
      started := c.started + 1
      pending := c.pending ++ [c.started]
      busy := (c.started, .rendering) :: c.busy } := by
  have hpermits := h.permits
  have hleft := h.left
  rw [hholding, Bool.toNat_true] at hpermits hleft
  refine { h with
    permits := ?_, left := ?_, tasks := ?_, waiting := ?_, jobs := ?_, reported := ?_ }
  · simp only [List.length_cons, Bool.toNat_false]
    omega
  · simp only [Bool.toNat_false]
    omega
  · refine List.perm_iff_count.2 fun x => ?_
    have hcount := h.tasks.count_eq x
    simp only [List.range_succ, List.count_append] at hcount ⊢
    omega
  · refine List.perm_iff_count.2 fun x => ?_
    have hcount := h.waiting.count_eq x
    simp only [List.map_cons, List.count_append, List.count_cons, List.count_nil] at hcount ⊢
    omega
  · intro task a w hw
    rcases List.mem_cons.1 hw with heq | hw
    · cases heq
    · exact h.jobs task a w hw
  · intro r hr
    obtain ⟨-, -, hall, -⟩ := h.reported r hr
    omega

/-- A result is collected. -/
theorem collect (h : Sound s bound events gone c) {before after : List (Nat × Report.Outcome)}
    {task : Nat} {result : Except SiteError Artifact}
    (hended : c.ended = before ++ (task, some result) :: after) :
    Sound s bound events gone { c with
      ended := before ++ after
      pending := c.pending.erase task
      results := c.results ++ [(task, result)] } := by
  have hwaiting := h.waiting
  rw [hended] at hwaiting
  have hmem : task ∈ c.pending := hwaiting.subset (by simp)
  have herase := List.perm_cons_erase hmem
  refine { h with
    tasks := ?_, waiting := ?_, ended := ?_, results := ?_, lost := ?_, reported := ?_ }
  · refine List.perm_iff_count.2 fun x => ?_
    have hcount := h.tasks.count_eq x
    have hone := herase.count_eq x
    simp only [List.map_append, List.map_cons, List.map_nil, List.count_append, List.count_cons,
      List.count_nil] at hcount hone ⊢
    omega
  · refine List.perm_iff_count.2 fun x => ?_
    have hcount := hwaiting.count_eq x
    have hone := herase.count_eq x
    simp only [List.map_append, List.map_cons, List.count_append, List.count_cons] at hcount hone ⊢
    omega
  · intro x hx
    refine h.ended x ?_
    rw [hended]
    exact mem_append_cons hx
  · intro x hx
    rcases List.mem_append.1 hx with hx | hx
    · exact h.results x hx
    · rw [List.mem_singleton.1 hx]
      refine h.ended (task, some result) ?_
      simp [hended]
  · intro other ho
    refine (h.lost other ho).imp_left fun hmem' => ?_
    rw [hended] at hmem'
    exact mem_of_mem_append_cons hmem' fun heq => nomatch congrArg Prod.snd heq
  · intro r hr
    obtain ⟨-, hnil, -⟩ := h.reported r hr
    rw [hnil] at hended
    cases (List.append_eq_nil_iff.1 hended.symm).2

/-- A worker that died is met. -/
theorem miss (h : Sound s bound events gone c) {before after : List (Nat × Report.Outcome)}
    {task : Nat} (hended : c.ended = before ++ (task, none) :: after) :
    Sound s bound events (task :: gone) { c with ended := before ++ after } := by
  have hwaiting := h.waiting
  rw [hended] at hwaiting
  have hdied : .lose task ∈ events := h.ended (task, none) (by simp [hended])
  refine { h with waiting := ?_, ended := ?_, buried := ?_, lost := ?_, reported := ?_ }
  · refine List.perm_iff_count.2 fun x => ?_
    have hcount := hwaiting.count_eq x
    simp only [List.map_append, List.map_cons, List.count_append, List.count_cons] at hcount ⊢
    omega
  · intro x hx
    refine h.ended x ?_
    rw [hended]
    exact mem_append_cons hx
  · exact List.forall_mem_cons.2 ⟨hdied, h.buried⟩
  · intro other ho
    rcases h.lost other ho with hmem | hmem
    · by_cases heq : other = task
      · exact Or.inr (List.mem_cons.2 (Or.inl heq))
      · rw [hended] at hmem
        exact Or.inl (mem_of_mem_append_cons hmem fun h => heq (congrArg Prod.fst h))
    · exact Or.inr (List.mem_cons_of_mem _ hmem)
  · intro r hr
    obtain ⟨-, hnil, -⟩ := h.reported r hr
    rw [hnil] at hended
    cases (List.append_eq_nil_iff.1 hended.symm).2

/-- What is known is known after one more step. -/
theorem step (h : Sound s bound events gone c) (hstep : Step s mode c event c') :
    ∃ gone', Sound s bound (events ++ [event]) gone' c' := by
  have hlast : event ∈ events ++ [event] := List.mem_append_right _ (List.mem_singleton_self _)
  cases hstep with
  | acquire left waiting free =>
    have hpermits := h.permits
    rw [waiting, Bool.toNat_false] at hpermits
    refine ⟨gone, { h.snoc (by rintro other ⟨⟩) with permits := ?_, left := ?_ }⟩
    · simp only [Bool.toNat_true]
      omega
    · exact left
  | spawn holding => exact ⟨gone, (h.spawn holding).snoc (by rintro other ⟨⟩)⟩
  | @settle _ _ task tag result busy answer unwritten =>
    refine ⟨gone, h.leave busy ?_ (by rintro other ⟨⟩)⟩
    cases result with
    | ok a => exact ⟨answer, tag, hlast⟩
    | error reason => exact ⟨answer, Or.inl ⟨tag, hlast⟩⟩
  | @begin _ _ task tag a busy answer writes changed =>
    exact ⟨gone, (h.snoc (by rintro other ⟨⟩)).write busy ⟨answer, tag, hlast⟩⟩
  | @proceed _ _ task a w w' d busy step undone =>
    have hexplained := h.jobs task a w (by simp [busy])
    exact ⟨gone, ((h.write busy hexplained).disk d).snoc (by rintro other ⟨⟩)⟩
  | @conclude _ _ task a w w' d result busy step done =>
    obtain ⟨answer, tag, htag⟩ := h.jobs task a w (by simp [busy])
    refine ⟨gone, (h.disk d).leave busy ?_ (by rintro other ⟨⟩)⟩
    cases result with
    | ok _ => exact ⟨answer, tag, List.mem_append_left _ htag⟩
    | error e => exact ⟨nofun, Or.inr ⟨tag, a, e, List.mem_append_left _ htag, rfl⟩⟩
  | @spoil _ _ task a w d kept rest busy =>
    obtain ⟨-, tag, htag⟩ := h.jobs task a w (by simp [busy])
    refine ⟨gone, (h.disk d).leave busy ?_ (by rintro other ⟨⟩)⟩
    exact ⟨nofun, Or.inr ⟨tag, a, .noSpace, List.mem_append_left _ htag, rfl⟩⟩
  | @lose _ _ task job busy =>
    exact ⟨gone, h.leave busy hlast fun other heq => ⟨(Event.lose.inj heq).symm, rfl⟩⟩
  | collect all ended => exact ⟨gone, (h.collect ended).snoc (by rintro other ⟨⟩)⟩
  | miss all ended => exact ⟨_, (h.miss ended).snoc (by rintro other ⟨⟩)⟩
  | report all busy ended first =>
    refine ⟨gone, { h.snoc (by rintro other ⟨⟩) with reported := fun r hr => ?_ }⟩
    exact ⟨busy, ended, all, _, (Option.some.inj hr).symm⟩

end Sound

/-- What is known between any two steps of a run. -/
theorem Run.sound {allowed : Crew → Event → Prop} {d : Disk}
    (h : Run s mode allowed (start bound d) events c) : ∃ gone, Sound s bound events gone c := by
  induction h with
  | nil => exact ⟨[], sound_start s bound d⟩
  | snoc run ok step ih =>
    obtain ⟨gone, hsound⟩ := ih
    exact hsound.step step

/-! ## The report -/

theorem mem_collected {x : Nat × Except SiteError Artifact} :
    x ∈ c.collected ↔ x ∈ c.results ∨ x.1 ∈ c.pending ∧ x.2 = .error .worker := by
  rw [collected, List.mem_mergeSort, List.mem_append, List.mem_map]
  refine or_congr_right ⟨?_, fun ⟨hmem, hx⟩ => ⟨x.1, hmem, Prod.ext rfl hx.symm⟩⟩
  rintro ⟨task, htask, rfl⟩
  exact ⟨htask, rfl⟩

section

variable (h : Sound s bound events gone c) (hbusy : c.busy = []) (hended : c.ended = [])
include h hbusy hended

/-- At the end the tasks without a result are those of the workers that died. -/
theorem Sound.pending_iff {task : Nat} : task ∈ c.pending ↔ .lose task ∈ events := by
  have hwaiting := h.waiting
  rw [hbusy, hended] at hwaiting
  rw [← hwaiting.mem_iff]
  refine ⟨h.buried task, fun hlose => (h.lost task hlose).resolve_left ?_⟩
  rw [hended]
  exact List.not_mem_nil

/-- A result that was collected is explained, or else its worker died. -/
theorem Sound.of_mem_collected {x : Nat × Except SiteError Artifact} (hx : x ∈ c.collected) :
    Explained s events x.1 x.2 ∧ .lose x.1 ∉ events ∨
      x.2 = .error .worker ∧ .lose x.1 ∈ events := by
  rcases mem_collected.1 hx with hx | ⟨hmem, hx⟩
  · refine Or.inl ⟨h.results x hx, fun hlose => ?_⟩
    have hnodup := h.tasks.nodup_iff.2 List.nodup_range
    exact (List.nodup_append.1 hnodup).2.2 _ ((h.pending_iff hbusy hended).2 hlose) _
      (List.mem_map_of_mem hx) rfl
  · exact Or.inr ⟨hx, (h.pending_iff hbusy hended).1 hmem⟩

omit hbusy hended in
/-- In their order the tasks are all tasks, each of them once. -/
theorem Sound.map_fst_collected (hall : c.started = s.manifest.entries.length) :
    c.collected.map Prod.fst = List.range s.manifest.entries.length := by
  have hperm : (c.collected.map Prod.fst).Perm (List.range s.manifest.entries.length) := by
    have htasks := h.tasks
    rw [hall] at htasks
    refine ((List.mergeSort_perm _ _).map Prod.fst).trans (.trans ?_ htasks)
    rw [List.map_append, List.map_map]
    exact List.perm_append_comm.trans (List.Perm.append_right _ (.of_eq (List.map_id' _)))
  have hsorted : (c.collected.map Prod.fst).Pairwise (· ≤ ·) := by
    refine List.pairwise_map.2 ((List.pairwise_mergeSort ?_ ?_ _).imp fun {x y} hle => ?_)
    · intro x y z hxy hyz
      exact decide_eq_true (Nat.le_trans (of_decide_eq_true hxy) (of_decide_eq_true hyz))
    · intro x y
      simpa using Nat.le_total x.1 y.1
    · exact of_decide_eq_true hle
  exact hperm.eq_of_pairwise (fun _ _ _ _ => Nat.le_antisymm) hsorted
    (List.pairwise_lt_range.imp Nat.le_of_lt)

end

/-- The tasks of the artifacts, beside the artifacts. -/
theorem forall₂_artifacts {R : Nat → Artifact → Prop}
    {l : List (Nat × Except SiteError Artifact)}
    (h : ∀ x ∈ l, ∀ a, x.2 = .ok a → R x.1 a) :
    List.Forall₂ R ((l.filter fun x => x.2.isOk).map Prod.fst)
      (l.filterMap fun x => x.2.toOption) := by
  induction l with
  | nil => exact .nil
  | cons x l ih =>
    obtain ⟨task, result⟩ := x
    obtain ⟨hfirst, hrest⟩ := List.forall_mem_cons.1 h
    cases result with
    | ok a => exact .cons (hfirst a rfl) (ih hrest)
    | error reason => exact ih hrest

/-- The tasks of the failures, beside the failures. -/
theorem forall₂_failures {R : Nat → EntryFailure → Prop} {m : Manifest}
    {l : List (Nat × Except SiteError Artifact)}
    (h : ∀ x ∈ l, ∀ reason, x.2 = .error reason →
      ∃ e, m.entries[x.1]? = some e ∧ R x.1 ⟨e, reason⟩) :
    List.Forall₂ R ((l.filter fun x => !x.2.isOk).map Prod.fst) (l.filterMap (failure? m)) := by
  induction l with
  | nil => exact .nil
  | cons x l ih =>
    obtain ⟨task, result⟩ := x
    obtain ⟨hfirst, hrest⟩ := List.forall_mem_cons.1 h
    cases result with
    | ok a => exact ih hrest
    | error reason =>
      obtain ⟨e, he, hR⟩ := hfirst reason rfl
      have hone : failure? m (task, .error reason) = some ⟨e, reason⟩ :=
        congrArg (Option.map fun e => (⟨e, reason⟩ : EntryFailure)) he
      rw [List.filterMap_cons_some hone]
      exact .cons hR (ih hrest)

/-- A report accounts for all entries. -/
theorem Sound.exists_accounts (h : Sound s bound events gone c) {r : Report}
    (hr : c.report = some r) : ∃ built failed, Accounts s events built failed r := by
  obtain ⟨hbusy, hended, hall, pruned, rfl⟩ := h.reported r hr
  have hfst := h.map_fst_collected hall
  have hexplained := fun x hx => h.of_mem_collected hbusy hended (x := x) hx
  have hentry : ∀ x ∈ c.collected, ∃ e, s.manifest.entries[x.1]? = some e := by
    intro x hx
    have hmem : x.1 ∈ List.range s.manifest.entries.length := by
      rw [← hfst]
      exact List.mem_map_of_mem hx
    exact ⟨_, List.getElem?_eq_getElem (List.mem_range.1 hmem)⟩
  have hordered : ∀ p, ((c.collected.filter p).map Prod.fst).Pairwise (· < ·) := by
    intro p
    have hrange := List.pairwise_lt_range (n := s.manifest.entries.length)
    rw [← hfst] at hrange
    exact hrange.sublist (List.filter_sublist.map _)
  refine ⟨(c.collected.filter fun x => x.2.isOk).map Prod.fst,
    (c.collected.filter fun x => !x.2.isOk).map Prod.fst,
    ?_, hordered _, hordered _, forall₂_artifacts ?_, forall₂_failures ?_, ?_, rfl⟩
  · rw [← List.map_append, ← hfst]
    exact (List.filter_append_perm _ _).map _
  · intro x hx a ha
    rcases hexplained x hx with ⟨hx', -⟩ | ⟨hlost, -⟩
    · rw [ha] at hx'
      exact ⟨hx'.1.1, hx'⟩
    · rw [ha] at hlost
      cases hlost
  · intro x hx reason hreason
    obtain ⟨e, he⟩ := hentry x hx
    refine ⟨e, he, he, ?_⟩
    rcases hexplained x hx with ⟨hx', hno⟩ | ⟨hlost, hlose⟩
    · rw [hreason] at hx'
      exact ⟨iff_of_false hx'.1 hno, fun _ => hx'⟩
    · rw [hreason] at hlost
      obtain rfl := Except.error.inj hlost
      exact ⟨iff_of_true rfl hlose, fun hne => absurd rfl hne⟩
  · intro task hlose
    have hmem : (task, .error .worker) ∈ c.collected :=
      mem_collected.2 (Or.inr ⟨(h.pending_iff hbusy hended).2 hlose, rfl⟩)
    exact List.mem_map.2 ⟨_, List.mem_filter.2 ⟨hmem, rfl⟩, rfl⟩

/-! ## The end of a run -/

/-- After the report nothing happens any more. -/
theorem Sound.report_eq_none (h : Sound s bound events gone c) (hstep : Step s mode c event c') :
    c.report = none := by
  cases hr : c.report with
  | none => rfl
  | some r =>
    obtain ⟨hbusy, hended, hall, -⟩ := h.reported r hr
    have hleft := h.left
    cases hstep with
    | acquire left waiting free => omega
    | spawn holding =>
      rw [holding, Bool.toNat_true] at hleft
      omega
    | settle busy | begin busy | proceed busy | conclude busy | spoil busy | lose busy =>
      exact absurd (busy.symm.trans hbusy) (by simp)
    | collect all ended | miss all ended => exact absurd (ended.symm.trans hended) (by simp)
    | report all busy ended first => exact absurd (hr.symm.trans first) nofun

/-- An entry may have the result that it has when nothing is written while it is
rendered. -/
theorem answers_render {task : Nat} {e : Entry} (he : s.manifest.entries[task]? = some e)
    (d : Disk) : s.Answers task (s.render d e) := by
  cases hrender : s.render d e with
  | ok a =>
    obtain ⟨-, rfl, houtput, -⟩ := Site.render_eq_ok_iff.1 hrender
    exact ⟨he, houtput⟩
  | error reason =>
    rintro rfl
    unfold Site.render at hrender
    dsimp only at hrender
    split at hrender <;> split at hrender <;> cases hrender

/-- A worker in flight can go on. -/
theorem Sound.exists_step_of_busy (h : Sound s bound events gone c) (mode : BuildMode)
    (hbusy : c.busy ≠ []) :
    ∃ event c', Step s mode c event c' ∧ ∀ task, event ≠ .lose task ∧ event ≠ .spoil task := by
  obtain ⟨⟨task, job⟩, rest, hcons⟩ := List.exists_cons_of_ne_nil hbusy
  have hsplit : c.busy = [] ++ (task, job) :: rest := hcons
  cases job with
  | writing a w =>
    cases hdone : (w.step c.disk).2.result? with
    | none => exact ⟨_, _, .proceed hsplit rfl hdone, fun _ => ⟨nofun, nofun⟩⟩
    | some result => exact ⟨_, _, .conclude hsplit rfl hdone, fun _ => ⟨nofun, nofun⟩⟩
  | rendering =>
    have htask := h.lt_of_busy (by rw [hcons]; exact List.mem_cons_self)
    have hanswer := answers_render (List.getElem?_eq_getElem htask) c.disk
    cases hrender : s.render c.disk s.manifest.entries[task] with
    | error reason =>
      rw [hrender] at hanswer
      exact ⟨.render task [] _, _, .settle hsplit hanswer nofun, fun _ => ⟨nofun, nofun⟩⟩
    | ok a =>
      rw [hrender] at hanswer
      by_cases hwrite : mode.writes ∧ a.isChanged
      · exact ⟨.render task [] _, _, .begin hsplit hanswer hwrite.1 hwrite.2,
          fun _ => ⟨nofun, nofun⟩⟩
      · refine ⟨.render task [] _, _, .settle hsplit hanswer ?_, fun _ => ⟨nofun, nofun⟩⟩
        rintro b ⟨⟩
        exact hwrite

/-- As long as there is no report something can happen, without any worker dying or failing
half way. -/
theorem Sound.exists_step (h : Sound s bound events gone c) (mode : BuildMode)
    (hbound : 0 < bound) (hreport : c.report = none) :
    ∃ event c', Step s mode c event c' ∧ ∀ task, event ≠ .lose task ∧ event ≠ .spoil task := by
  have hpermits := h.permits
  have hleft := h.left
  by_cases hbusy : c.busy = []
  · cases hholding : c.holding with
    | true => exact ⟨_, _, .spawn hholding, fun _ => ⟨nofun, nofun⟩⟩
    | false =>
      rw [hbusy, hholding] at hpermits
      simp only [List.length_nil, Bool.toNat_false] at hpermits
      by_cases hall : c.started = s.manifest.entries.length
      · cases hended : c.ended with
        | nil => exact ⟨_, _, .report hall hbusy hended hreport, fun _ => ⟨nofun, nofun⟩⟩
        | cons x rest =>
          have hsplit : c.ended = [] ++ x :: rest := hended
          obtain ⟨task, _ | result⟩ := x
          · exact ⟨.join task, _, .miss hall hsplit, fun _ => ⟨nofun, nofun⟩⟩
          · exact ⟨.join task, _, .collect hall hsplit, fun _ => ⟨nofun, nofun⟩⟩
      · exact ⟨_, _, .acquire (by omega) hholding (by omega), fun _ => ⟨nofun, nofun⟩⟩
  · exact h.exists_step_of_busy mode hbusy

/-- How many events a worker has before it at most, its being met included. -/
def jobLeft : Job → Nat
  | .rendering => 7
  | .writing _ w => w.stepsLeft + 2

/-- How many events some workers have before them at most. -/
def workLeft : List (Nat × Job) → Nat
  | [] => 0
  | x :: busy => jobLeft x.2 + workLeft busy

/-- How many events a crew has before it at most, but for one if it holds a permit. -/
def remaining (s : Site) (c : Crew) : Nat :=
  9 * (s.manifest.entries.length - c.started) + workLeft c.busy + c.ended.length +
    c.report.isNone.toNat

@[simp] theorem jobLeft_rendering : jobLeft .rendering = 7 := rfl

@[simp] theorem jobLeft_writing (a : Artifact) (w : Writer) :
    jobLeft (.writing a w) = w.stepsLeft + 2 := rfl

theorem workLeft_cons (x : Nat × Job) (busy : List (Nat × Job)) :
    workLeft (x :: busy) = jobLeft x.2 + workLeft busy := rfl

theorem workLeft_middle (before after : List (Nat × Job)) (x : Nat × Job) :
    workLeft (before ++ x :: after) = workLeft (before ++ after) + jobLeft x.2 := by
  induction before with
  | nil => exact Nat.add_comm _ _
  | cons y before ih =>
    rw [List.cons_append, List.cons_append, workLeft_cons, workLeft_cons, ih, Nat.add_assoc]

theorem stepsLeft_start (target : Path) (tag : Text) (contents : ByteArray) :
    (Writer.start target tag contents).stepsLeft = 4 := rfl

/-- Each event is one of those that were left. -/
theorem Step.remaining (hstep : Step s mode c event c')
    (hleft : c.started + c.holding.toNat ≤ s.manifest.entries.length) :
    remaining s c' + 1 + c.holding.toNat ≤ remaining s c + c'.holding.toNat := by
  cases hstep with
  | acquire left waiting free => simp [Crew.remaining, waiting]
  | spawn holding =>
    rw [holding, Bool.toNat_true] at hleft
    simp only [Crew.remaining, holding, workLeft_cons, jobLeft_rendering, Bool.toNat_true,
      Bool.toNat_false]
    omega
  | settle busy answer unwritten =>
    simp only [Crew.remaining, leave, busy, workLeft_middle, jobLeft_rendering, List.length_cons]
    omega
  | begin busy answer writes changed =>
    simp only [Crew.remaining, busy, workLeft_middle, jobLeft_rendering, jobLeft_writing,
      stepsLeft_start]
    omega
  | @proceed _ _ task a w w' d busy step undone =>
    have hsteps : w'.stepsLeft ≤ w.stepsLeft - 1 := by
      have hle := Writer.stepsLeft_step_le c.disk w
      rwa [step] at hle
    have hsome : w'.stepsLeft ≠ 0 := by
      obtain ⟨target, temporary, contents, phase⟩ := w'
      cases phase with
      | done result => cases undone
      | _ => exact Nat.succ_ne_zero _
    simp only [Crew.remaining, busy, workLeft_middle, jobLeft_writing]
    omega
  | conclude busy step done =>
    simp only [Crew.remaining, leave, busy, workLeft_middle, jobLeft_writing, List.length_cons]
    omega
  | @spoil _ _ task a w d kept rest busy part step =>
    simp only [Crew.remaining, leave, busy, workLeft_middle, jobLeft_writing, List.length_cons]
    omega
  | @lose _ _ task job busy =>
    have hjob : 2 ≤ jobLeft job := by
      cases job with
      | rendering => decide
      | writing a w => exact Nat.le_add_left _ _
    simp only [Crew.remaining, leave, busy, workLeft_middle, List.length_cons]
    omega
  | collect all ended =>
    simp only [Crew.remaining, ended, List.length_append, List.length_cons]
    omega
  | miss all ended =>
    simp only [Crew.remaining, ended, List.length_append, List.length_cons]
    omega
  | report all busy ended first => simp [Crew.remaining, first]

/-- No run has more events than there are at most. -/
theorem Run.length_le {allowed : Crew → Event → Prop} {d : Disk}
    (h : Run s mode allowed (start bound d) events c) :
    events.length + remaining s c ≤ 9 * s.manifest.entries.length + 1 + c.holding.toNat := by
  induction h with
  | nil => simp [remaining, start, workLeft]
  | snoc run ok step ih =>
    obtain ⟨gone, hsound⟩ := run.sound
    have hone := step.remaining hsound.left
    rw [List.length_append, List.length_singleton]
    omega

end Folio.Crew
