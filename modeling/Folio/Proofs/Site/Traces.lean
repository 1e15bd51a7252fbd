import Folio.Proofs.Disk.Replace
import Folio.Proofs.Site.Crew
import Folio.Proofs.Site.Leftover

/-!
# What a crew leaves behind

Workers write at the same time. `Crew.Traces` is what can be said of the tree between any
two steps : every file was there, or is the output of an artifact that was written, or is
the temporary file of a writer in flight or of one that has failed half way; every directory
was there or lies above an output; and nothing that was there is gone.

One writer does not harm another, since its temporary file has a name of its own and is no
output (`Crew.Tidy`). A step of a writer touches its temporary file and, when it gives
that file its name, its target (`Writer.frame_step`); `Writer.Placed` says whether the
temporary file is there, and is kept by each step. So a crew keeps its traces as long as it
is tidy (`Crew.Run.exists_orderly`). When no writer is in flight, the temporary files that
are left are those of the writers that have failed half way, and all of these are left.
-/

namespace Folio

namespace Writer

variable {d : Disk} {w : Writer} {l : Location}

/-- Whether a writer has written its temporary file and not yet done away with it. -/
def holds (w : Writer) : Bool :=
  match w.phase with
  | .rename => true
  | .discard _ => true
  | _ => false

/-- A writer whose temporary file is written in part was about to write it. -/
theorem spoil_eq_some {kept : ByteArray} {d' : Disk} (h : w.spoil d kept = some d') :
    d.writeFile w.temporary kept = .ok d' := by
  obtain ⟨target, temporary, contents, phase⟩ := w
  cases phase with
  | writeTemporary => exact toOption_eq_some_iff.1 h
  | _ => cases h

theorem holds_of_result? {result : Except SystemError Unit} (h : w.result? = some result) :
    w.holds = false := by
  obtain ⟨target, temporary, contents, phase⟩ := w
  cases phase with
  | done r => rfl
  | _ => cases h

/-- Whether the temporary file of a writer is there as long as it should be. -/
structure Placed (d : Disk) (w : Writer) : Prop where
  held : w.holds = true → d.read w.temporary = .ok w.contents
  free : w.holds = false → ∀ c, d.node? (d.place w.temporary) ≠ some (.file c)

theorem placed_of_free {target temporary : Path} {contents : ByteArray} {phase : WriterPhase}
    (hholds : (⟨target, temporary, contents, phase⟩ : Writer).holds = false)
    (hfree : ∀ c, d.node? (d.place temporary) ≠ some (.file c)) :
    (⟨target, temporary, contents, phase⟩ : Writer).Placed d :=
  ⟨fun h => Bool.noConfusion (hholds.symm.trans h), fun _ => hfree⟩

theorem Placed.step (h : w.Placed d) (hne : d.place w.temporary ≠ d.place w.target) :
    (w.step d).2.Placed (w.step d).1 := by
  obtain ⟨target, temporary, contents, phase⟩ := w
  cases phase with
  | makeFolders =>
    have hfree := h.free rfl
    simp only [Writer.step]
    split
    · exact placed_of_free rfl hfree
    · rename_i folder _
      have hgrown := Disk.grown_makeDirectories d folder
      have hfree' : ∀ c, (d.makeDirectories folder).1.node?
          ((d.makeDirectories folder).1.place temporary) ≠ some (.file c) := by
        intro c hc
        rw [Disk.place_congr hgrown.current, hgrown.file_iff] at hc
        exact hfree c hc
      split <;> rename_i d' _ hmade <;> rw [hmade] at hfree' <;> exact placed_of_free rfl hfree'
  | writeTemporary =>
    simp only [Writer.step]
    split
    · rename_i d' hwritten
      exact ⟨fun _ => (Disk.writeFile_eq_ok hwritten).1, nofun⟩
    · exact placed_of_free rfl (h.free rfl)
  | rename =>
    simp only [Writer.step]
    split
    · rename_i d' hrenamed
      obtain ⟨c, -, -, hcurrent, hnode⟩ := Disk.rename_eq_ok_node? hrenamed
      have hgone : d'.node? (d'.place temporary) = none := by
        rw [Disk.place_congr hcurrent, hnode, if_neg hne, if_pos rfl]
      refine placed_of_free rfl fun c' hc' => ?_
      rw [hgone] at hc'
      cases hc'
    · exact ⟨fun _ => h.held rfl, nofun⟩
  | discard e =>
    obtain ⟨d', hremoved, hcurrent, hnode⟩ := Disk.removeFile_of_read (h.held rfl)
    have hgone : d'.node? (d'.place temporary) = none := by
      rw [Disk.place_congr hcurrent, hnode, if_pos rfl]
    have hstep : Writer.step d ⟨target, temporary, contents, .discard e⟩ =
        (d', ⟨target, temporary, contents, .done (.error e)⟩) := by
      simp only [Writer.step]
      rw [hremoved]
      rfl
    rw [hstep]
    refine placed_of_free rfl fun c' hc' => ?_
    rw [hgone] at hc'
    cases hc'
  | done result => exact h

/-- A writer that is not done and whose temporary file is in place is ready. -/
theorem Placed.ready (h : w.Placed d) (hundone : w.result? = none) : w.Ready d := by
  obtain ⟨target, temporary, contents, phase⟩ := w
  cases phase with
  | rename => exact h.held rfl
  | done result => cases hundone
  | _ => trivial

/-- The target holds the contents after the step that makes a writer done well. -/
theorem Placed.node?_target (h : w.Placed d) (hundone : w.result? = none)
    (hdone : (w.step d).2.result? = some (.ok ())) :
    (w.step d).1.node? (d.place w.target) = some (.file w.contents) := by
  obtain ⟨htarget, -, hcontents⟩ := step_same d w
  obtain ⟨-, hnode⟩ := Disk.read_eq_ok_iff.1 ((h.ready hundone).step.read hdone)
  rwa [htarget, hcontents, Disk.place_congr (frame_step d w).current] at hnode

theorem step_makeFolders (d : Disk) (target temporary : Path) (contents : ByteArray) :
    (Writer.step d ⟨target, temporary, contents, .makeFolders⟩).1 = (d.makeFolders target).1 := by
  simp only [Writer.step, Disk.makeFolders]
  cases target.parent? with
  | none => rfl
  | some folder =>
    dsimp only
    cases d.makeDirectories folder with
    | mk made result => cases result <;> rfl

/-- A step makes no other directories than ones above the target. -/
theorem Placed.directory_step (h : w.Placed d)
    (hl : (w.step d).1.node? l = some .directory) :
    d.node? l = some .directory ∨ ∃ q, q.Above w.target ∧ l = d.place q := by
  obtain ⟨target, temporary, contents, phase⟩ := w
  cases phase with
  | makeFolders =>
    have hgrown := Disk.grown_makeFolders d target
    rw [step_makeFolders] at hl
    rcases hgrown.node l with heq | ⟨-, -, hplace⟩
    · exact Or.inl (heq ▸ hl)
    · exact Or.inr hplace
  | writeTemporary =>
    simp only [Writer.step] at hl
    split at hl
    · rename_i d' hwritten
      obtain ⟨-, -, hnode⟩ := Disk.writeFile_eq_ok_node? hwritten
      rw [hnode] at hl
      split at hl
      · cases hl
      · exact Or.inl hl
    · exact Or.inl hl
  | rename =>
    simp only [Writer.step] at hl
    split at hl
    · rename_i d' hrenamed
      obtain ⟨c, -, -, -, hnode⟩ := Disk.rename_eq_ok_node? hrenamed
      rw [hnode] at hl
      split at hl
      · cases hl
      · split at hl
        · cases hl
        · exact Or.inl hl
    · exact Or.inl hl
  | discard e =>
    obtain ⟨d', hremoved, -, hnode⟩ := Disk.removeFile_of_read (h.held rfl)
    simp only [Writer.step] at hl
    rw [hremoved] at hl
    simp only at hl
    rw [hnode] at hl
    split at hl
    · cases hl
    · exact Or.inl hl
  | done result => exact Or.inl hl

end Writer

/-- Whether a location may be that of a temporary file : no file stands there, and it is
not the place of an output. -/
structure Site.Own (s : Site) (d : Disk) (l : Location) : Prop where
  free : ∀ x, d.node? l ≠ some (.file x)
  apart : ∀ e ∈ s.manifest.entries, l ≠ d.place (s.outputPath e)

/-- Whether an artifact is that of an entry, with the path of its output. -/
structure Site.Lists (s : Site) (a : Artifact) : Prop where
  entry : a.entry ∈ s.manifest.entries
  output : a.output = s.outputPath a.entry

/-- What a writer of an artifact does on a disk that was `d` at first. -/
structure Site.Writes (s : Site) (d disk : Disk) (a : Artifact) (w : Writer) : Prop where
  target : w.target = a.output
  contents : w.contents = a.contents
  listed : s.Lists a
  changed : a.isChanged
  own : s.Own d (d.place w.temporary)
  placed : w.Placed disk

/-- Whether two workers use different temporary files, if both write. -/
def Job.Apart (d : Disk) : Job → Job → Prop
  | .writing _ w, .writing _ w' => d.place w.temporary ≠ d.place w'.temporary
  | _, _ => True

theorem Job.Apart.symm {d : Disk} {x y : Job} (h : x.Apart d y) : y.Apart d x := by
  cases x <;> cases y <;> first | trivial | exact Ne.symm h

namespace Crew

variable {s : Site} {mode : BuildMode} {bound : Nat} {events : List Event} {event : Event}
  {c c' : Crew} {d disk : Disk} {built built' : Artifact → Prop} {left : Location → Prop}
  {busy before after : List (Nat × Job)} {task : Nat} {job : Job} {a : Artifact} {w : Writer}

/-- What may happen to a crew that began with a disk `d` without one writer disturbing
another one : a temporary file has a name of its own, under which no file stands, and no
worker dies while it writes. -/
def Tidy (s : Site) (mode : BuildMode) (d : Disk) (c : Crew) : Event → Prop
  | .render _ tag (.ok a) => mode.writes → a.isChanged →
      s.Own d (d.place (Writer.temporaryFor a.output tag)) ∧
        (∀ x, c.disk.node? (d.place (Writer.temporaryFor a.output tag)) ≠ some (.file x)) ∧
        ∀ task b w, (task, .writing b w) ∈ c.busy →
          d.place w.temporary ≠ d.place (Writer.temporaryFor a.output tag)
  | .lose task => ∀ a w, (task, .writing a w) ∉ c.busy
  | _ => True

/-- What can be said of a disk that was `d` at first while workers are in flight; the
artifacts that are `built` are done, and `left` are the places of the temporary files whose
writers have failed half way. -/
structure Traces (s : Site) (d disk : Disk) (built : Artifact → Prop) (left : Location → Prop)
    (busy : List (Nat × Job)) : Prop where
  current : disk.current = d.current
  files : ∀ l x, disk.node? l = some (.file x) → d.node? l = some (.file x) ∨
    (∃ a, built a ∧ s.Lists a ∧ a.isChanged ∧ l = d.place a.output ∧ x = a.contents) ∨
    (∃ task a w, (task, .writing a w) ∈ busy ∧ w.holds ∧ l = d.place w.temporary) ∨ left l
  directories : ∀ l, disk.node? l = some .directory → d.node? l = some .directory ∨
    ∃ e ∈ s.manifest.entries, ∃ q, q.Above (s.outputPath e) ∧ l = d.place q
  kept : ∀ l, d.node? l = some .directory → disk.node? l = some .directory
  stays : ∀ l x, d.node? l = some (.file x) → ∃ y, disk.node? l = some (.file y)
  writers : ∀ task a w, (task, .writing a w) ∈ busy → s.Writes d disk a w
  apart : busy.Pairwise fun x y => x.2.Apart d y.2
  /-- A temporary file that is left stays, for it is nobody's any more. -/
  remains : ∀ l, left l → s.Own d l ∧ (∃ x, disk.node? l = some (.file x)) ∧
    ∀ task a w, (task, .writing a w) ∈ busy → l ≠ d.place w.temporary

theorem traces_start (s : Site) (d : Disk) (built : Artifact → Prop) :
    Traces s d d built (fun _ => False) [] where
  current := rfl
  files _ _ := Or.inl
  directories _ := Or.inl
  kept _ := id
  stays _ x h := ⟨x, h⟩
  writers := nofun
  apart := .nil
  remains := fun _ => False.elim

namespace Traces

theorem mono (h : Traces s d disk built left busy) (hbuilt : ∀ a, built a → built' a) :
    Traces s d disk built' left busy := by
  refine { h with files := fun l x hl => (h.files l x hl).imp_right (Or.imp_left ?_) }
  exact Exists.imp fun a => And.imp_left (hbuilt a)

/-- A worker that is no writer comes into flight. -/
theorem cons (h : Traces s d disk built left busy) (task : Nat) :
    Traces s d disk built left ((task, .rendering) :: busy) := by
  have hwriter : ∀ {other a w}, (other, Job.writing a w) ∈ (task, Job.rendering) :: busy →
      (other, .writing a w) ∈ busy := fun hmem => (List.mem_cons.1 hmem).resolve_left nofun
  refine { h with
    files := fun l x hl => ?_
    writers := fun other a w hmem => h.writers other a w (hwriter hmem)
    apart := List.pairwise_cons.2 ⟨fun _ _ => trivial, h.apart⟩
    remains := fun l hl => ?_ }
  · refine (h.files l x hl).imp_right (Or.imp_right (Or.imp_left ?_))
    rintro ⟨other, a, w, hmem, hw⟩
    exact ⟨other, a, w, List.mem_cons_of_mem _ hmem, hw⟩
  · obtain ⟨hown, hfile, haside⟩ := h.remains l hl
    exact ⟨hown, hfile, fun other a w hmem => haside other a w (hwriter hmem)⟩

/-- A worker without a temporary file goes out of flight. -/
theorem drop (h : Traces s d disk built left (before ++ (task, job) :: after))
    (hjob : ∀ a w, job = .writing a w → w.holds = false) :
    Traces s d disk built left (before ++ after) := by
  have hsub : (before ++ after).Sublist (before ++ (task, job) :: after) :=
    (List.Sublist.refl before).append (List.sublist_cons_self _ after)
  refine { h with
    files := fun l x hl => (h.files l x hl).imp_right (Or.imp_right (Or.imp_left ?_))
    writers := fun other a w hmem => h.writers other a w (hsub.subset hmem)
    apart := h.apart.sublist hsub
    remains := fun l hl => (h.remains l hl).imp_right (And.imp_right fun haside other a w hmem =>
      haside other a w (hsub.subset hmem)) }
  rintro ⟨other, a, w, hmem, hholds, hl⟩
  refine ⟨other, a, w, mem_of_mem_append_cons hmem ?_, hholds, hl⟩
  rintro ⟨⟩
  rw [hjob a w rfl] at hholds
  cases hholds

/-- A worker goes on to write, with a temporary file of its own. -/
theorem begin {tag : Text} (h : Traces s d disk built left (before ++ (task, .rendering) :: after))
    (hlisted : s.Lists a) (hchanged : a.isChanged)
    (hown : s.Own d (d.place (Writer.temporaryFor a.output tag)))
    (hfree : ∀ x, disk.node? (d.place (Writer.temporaryFor a.output tag)) ≠ some (.file x))
    (hnew : ∀ other b w, (other, .writing b w) ∈ before ++ (task, Job.rendering) :: after →
      d.place w.temporary ≠ d.place (Writer.temporaryFor a.output tag)) :
    Traces s d disk built left
      (before ++ (task, .writing a (.start a.output tag a.contents)) :: after) := by
  have hother : ∀ {x}, x ∈ before ++ after → x ∈ before ++ (task, Job.rendering) :: after :=
    mem_append_cons
  refine { h with files := fun l x hl => ?_, writers := ?_, apart := ?_, remains := ?_ }
  · refine (h.files l x hl).imp_right (Or.imp_right (Or.imp_left ?_))
    rintro ⟨other, b, w, hmem, hw⟩
    exact ⟨other, b, w, mem_append_cons (mem_of_mem_append_cons hmem nofun), hw⟩
  · intro other b w hmem
    by_cases heq : (other, Job.writing b w) = (task, .writing a (.start a.output tag a.contents))
    · cases heq
      refine ⟨rfl, rfl, hlisted, hchanged, hown, nofun, fun _ x hx => ?_⟩
      rw [Disk.place_congr h.current] at hx
      exact hfree x hx
    · exact h.writers other b w (hother (mem_of_mem_append_cons hmem heq))
  · have hapart := (List.pairwise_middle Job.Apart.symm).1 h.apart
    refine (List.pairwise_middle Job.Apart.symm).2
      (List.pairwise_cons.2 ⟨?_, (List.pairwise_cons.1 hapart).2⟩)
    rintro ⟨other, job⟩ hmem
    cases job with
    | rendering => trivial
    | writing b w => exact Ne.symm (hnew other b w (hother hmem))
  · intro l hl
    obtain ⟨hown', ⟨x, hx⟩, haside⟩ := h.remains l hl
    refine ⟨hown', ⟨x, hx⟩, fun other b w hmem => ?_⟩
    by_cases heq : (other, Job.writing b w) = (task, .writing a (.start a.output tag a.contents))
    · cases heq
      rintro rfl
      exact hfree x hx
    · exact haside other b w (hother (mem_of_mem_append_cons hmem heq))

/-- A writer that is not at work is not disturbed by a change to the temporary file and the
target of another one. -/
theorem writes_of_frame {touched removed : Location → Prop} {disk' : Disk}
    (h : Traces s d disk built left (before ++ (task, .writing a w) :: after))
    (hframe : Disk.Frame touched removed disk disk')
    (htouched : ∀ l, touched l → l = d.place w.temporary ∨ l = d.place w.target)
    {other : Nat} {b : Artifact} {v : Writer} (hmem : (other, .writing b v) ∈ before ++ after) :
    s.Writes d disk' b v := by
  have hw := h.writers task a w List.mem_append_cons_self
  have hv := h.writers other b v (mem_append_cons hmem)
  have hapart : d.place w.temporary ≠ d.place v.temporary :=
    (List.pairwise_cons.1 ((List.pairwise_middle Job.Apart.symm).1 h.apart)).1 _ hmem
  have huntouched : ¬touched (disk.place v.temporary) := by
    rw [Disk.place_congr h.current]
    intro htouch
    rcases htouched _ htouch with heq | heq
    · exact hapart heq.symm
    · rw [hw.target, hw.listed.output] at heq
      exact hv.own.apart _ hw.listed.entry heq
  refine { hv with placed := ⟨fun hholds => hframe.read (hv.placed.held hholds) huntouched,
    fun hholds x hx => ?_⟩ }
  rw [Disk.place_congr hframe.current, hframe.file_iff huntouched] at hx
  exact hv.placed.free hholds x hx

/-- A file at the target of a writer that has just been done well is its output. -/
theorem file_target (h : Traces s d disk built left (before ++ (task, .writing a w) :: after))
    (hundone : w.result? = none) (hdone : (w.step disk).2.result? = some (.ok ())) {x : ByteArray}
    (hx : (w.step disk).1.node? (disk.place w.target) = some (.file x)) : x = a.contents := by
  have hw := h.writers task a w List.mem_append_cons_self
  rw [hw.placed.node?_target hundone hdone] at hx
  rw [← hw.contents]
  exact (DiskNode.file.inj (Option.some.inj hx)).symm

/-- A writer goes on with its own. -/
theorem writes_self (h : Traces s d disk built left (before ++ (task, .writing a w) :: after)) :
    s.Writes d (w.step disk).1 a (w.step disk).2 := by
  have hw := h.writers task a w List.mem_append_cons_self
  obtain ⟨htarget, htemporary, hcontents⟩ := Writer.step_same disk w
  refine ⟨htarget.trans hw.target, hcontents.trans hw.contents, hw.listed, hw.changed, ?_, ?_⟩
  · rw [htemporary]
    exact hw.own
  · refine hw.placed.step ?_
    rw [Disk.place_congr h.current, Disk.place_congr h.current, hw.target, hw.listed.output]
    exact hw.own.apart _ hw.listed.entry

/-- The files after a step of a writer. -/
theorem file_step (h : Traces s d disk built left (before ++ (task, .writing a w) :: after))
    (hundone : w.result? = none) {l : Location} {x : ByteArray}
    (hl : (w.step disk).1.node? l = some (.file x)) : d.node? l = some (.file x) ∨
      (∃ b, (built b ∨ b = a ∧ (w.step disk).2.result? = some (.ok ())) ∧ s.Lists b ∧
        b.isChanged ∧ l = d.place b.output ∧ x = b.contents) ∨
      (∃ other b v, (other, .writing b v) ∈ before ++ (task, .writing a (w.step disk).2) :: after ∧
        v.holds ∧ l = d.place v.temporary) ∨ left l := by
  have hw := h.writers task a w List.mem_append_cons_self
  have hframe := Writer.frame_step disk w
  obtain ⟨-, htemporary, -⟩ := Writer.step_same disk w
  have hplace : ∀ p, disk.place p = d.place p := Disk.place_congr h.current
  by_cases htouched : l = disk.place w.temporary ∨
      l = disk.place w.target ∧ (w.step disk).2.result? = some (.ok ())
  · rcases htouched with rfl | ⟨rfl, hdone⟩
    · -- Where the temporary file stood it still stands, or nothing does.
      cases hholds : (w.step disk).2.holds with
      | true =>
        refine Or.inr (Or.inr (Or.inl ⟨task, a, _, List.mem_append_cons_self, hholds, ?_⟩))
        rw [htemporary, hplace]
      | false =>
        refine absurd hl ?_
        rw [← htemporary, ← Disk.place_congr hframe.current]
        exact h.writes_self.placed.free hholds x
    · refine Or.inr (Or.inl ⟨a, Or.inr ⟨rfl, hdone⟩, hw.listed, hw.changed, ?_, ?_⟩)
      · rw [hplace, hw.target]
      · exact h.file_target hundone hdone hl
  · rw [hframe.file_iff htouched] at hl
    rcases h.files l x hl with
      hold | ⟨b, hb, hlx⟩ | ⟨other, b, v, hmem, hholds, rfl⟩ | hleft
    · exact Or.inl hold
    · exact Or.inr (Or.inl ⟨b, Or.inl hb, hlx⟩)
    · refine Or.inr (Or.inr (Or.inl ⟨other, b, v, mem_append_cons ?_, hholds, rfl⟩))
      refine mem_of_mem_append_cons hmem ?_
      rintro ⟨⟩
      exact htouched (Or.inl (hplace _).symm)
    · exact Or.inr (Or.inr (Or.inr hleft))

/-- A writer does a step. -/
theorem step (h : Traces s d disk built left (before ++ (task, .writing a w) :: after))
    (hundone : w.result? = none) : Traces s d (w.step disk).1
      (fun b => built b ∨ b = a ∧ (w.step disk).2.result? = some (.ok ())) left
      (before ++ (task, .writing a (w.step disk).2) :: after) := by
  have hw := h.writers task a w List.mem_append_cons_self
  have hframe := Writer.frame_step disk w
  have hplace : ∀ p, disk.place p = d.place p := Disk.place_congr h.current
  constructor
  case current => exact hframe.current.trans h.current
  case files => exact fun l x => h.file_step hundone
  case directories =>
    intro l hl
    rcases hw.placed.directory_step hl with hold | ⟨q, hq, hlq⟩
    · exact h.directories l hold
    · rw [hw.target, hw.listed.output] at hq
      exact Or.inr ⟨a.entry, hw.listed.entry, q, hq, hlq.trans (hplace q)⟩
  case kept => exact fun l hl => hframe.directory (h.kept l hl)
  case stays =>
    intro l x hx
    obtain ⟨y, hy⟩ := h.stays l x hx
    refine hframe.stays ?_ hy
    rintro rfl
    rw [hplace] at hx
    exact hw.own.free x hx
  case writers =>
    intro other b v hmem
    by_cases heq : (other, Job.writing b v) = (task, .writing a (w.step disk).2)
    · cases heq
      exact h.writes_self
    · refine h.writes_of_frame hframe (fun l hl => ?_) (mem_of_mem_append_cons hmem heq)
      rw [hplace, hplace] at hl
      exact hl.imp_right And.left
  case apart =>
    obtain ⟨hapart, hrest⟩ :=
      List.pairwise_cons.1 ((List.pairwise_middle Job.Apart.symm).1 h.apart)
    refine (List.pairwise_middle Job.Apart.symm).2 (List.pairwise_cons.2 ⟨?_, hrest⟩)
    rintro ⟨other, job⟩ hmem
    cases job with
    | rendering => trivial
    | writing b v =>
      have hne : d.place w.temporary ≠ d.place v.temporary := hapart _ hmem
      show d.place (w.step disk).2.temporary ≠ d.place v.temporary
      rwa [(Writer.step_same disk w).2.1]
  case remains =>
    intro l hl
    obtain ⟨hown, ⟨x, hx⟩, haside⟩ := h.remains l hl
    have hself := haside task a w List.mem_append_cons_self
    refine ⟨hown, hframe.stays (by rwa [hplace]) hx, fun other b v hmem => ?_⟩
    by_cases heq : (other, Job.writing b v) = (task, .writing a (w.step disk).2)
    · cases heq
      rwa [(Writer.step_same disk w).2.1]
    · exact haside other b v (mem_append_cons (mem_of_mem_append_cons hmem heq))

/-- A writer fails half way and leaves its temporary file. -/
theorem spoil {kept : ByteArray} {disk' : Disk}
    (h : Traces s d disk built left (before ++ (task, .writing a w) :: after))
    (hspoil : w.spoil disk kept = some disk') :
    Traces s d disk' built (fun l => left l ∨ l = d.place w.temporary) (before ++ after) := by
  have hwrite := Writer.spoil_eq_some hspoil
  have hframe := (Disk.writeFile_eq_ok hwrite).2
  obtain ⟨hnot, -, hnode⟩ := Disk.writeFile_eq_ok_node? hwrite
  rw [Disk.place_congr h.current] at hframe hnot hnode
  have hw := h.writers task a w List.mem_append_cons_self
  have hsub : (before ++ after).Sublist (before ++ (task, .writing a w) :: after) :=
    (List.Sublist.refl before).append (List.sublist_cons_self _ after)
  constructor
  case current => exact hframe.current.trans h.current
  case files =>
    intro l x hl
    by_cases htemporary : l = d.place w.temporary
    · exact Or.inr (Or.inr (Or.inr (Or.inr htemporary)))
    · rw [hnode, if_neg htemporary] at hl
      rcases h.files l x hl with hold | hbuilt | ⟨other, b, v, hmem, hholds, hlv⟩ | hleft
      · exact Or.inl hold
      · exact Or.inr (Or.inl hbuilt)
      · refine Or.inr (Or.inr (Or.inl ⟨other, b, v, ?_, hholds, hlv⟩))
        refine mem_of_mem_append_cons hmem ?_
        rintro ⟨⟩
        exact htemporary hlv
      · exact Or.inr (Or.inr (Or.inr (Or.inl hleft)))
  case directories =>
    intro l hl
    rw [hnode] at hl
    split at hl
    · cases hl
    · exact h.directories l hl
  case kept => exact fun l hl => hframe.directory (h.kept l hl)
  case stays =>
    intro l x hx
    obtain ⟨y, hy⟩ := h.stays l x hx
    exact hframe.stays (not_false) hy
  case writers => exact fun other b v hmem => h.writes_of_frame hframe (fun _ => Or.inl) hmem
  case apart => exact h.apart.sublist hsub
  case remains =>
    rintro l (hleft | rfl)
    · obtain ⟨hown, ⟨x, hx⟩, haside⟩ := h.remains l hleft
      exact ⟨hown, hframe.stays not_false hx, fun other b v hmem =>
        haside other b v (hsub.subset hmem)⟩
    · refine ⟨hw.own, ⟨kept, by rw [hnode, if_pos rfl]⟩, fun other b v hmem => ?_⟩
      exact (List.pairwise_cons.1 ((List.pairwise_middle Job.Apart.symm).1 h.apart)).1 _ hmem

end Traces

/-! ## Between two steps -/

/-- Whether the worker of a task has ended and gave an artifact. -/
def Gave (c : Crew) (task : Nat) (a : Artifact) : Prop :=
  (task, some (.ok a)) ∈ c.ended ∨ (task, .ok a) ∈ c.results

/-- Whether a worker that has ended gave an artifact. -/
def Built (c : Crew) (a : Artifact) : Prop :=
  ∃ task, c.Gave task a

/-- Whether a location is the place of the temporary file of a worker that has failed half
way. -/
def Spoilt (d : Disk) (events : List Event) (l : Location) : Prop :=
  ∃ task tag a, .render task tag (.ok a) ∈ events ∧ .spoil task ∈ events ∧
    l = d.place (Writer.temporaryFor a.output tag)

theorem Spoilt.mono {more : List Event} {l : Location} (h : Spoilt d events l)
    (hmore : ∀ event ∈ events, event ∈ more) : Spoilt d more l := by
  obtain ⟨task, tag, a, hrender, hspoil, hl⟩ := h
  exact ⟨task, tag, a, hmore _ hrender, hmore _ hspoil, hl⟩

/-- What is known of a tidy crew between two steps; `left` are the places of the temporary
files that are left. -/
structure Orderly (s : Site) (mode : BuildMode) (d : Disk) (events : List Event) (c : Crew)
    (left : Location → Prop) : Prop where
  traces : Traces s d c.disk c.Built left c.busy
  undone : ∀ task a w, (task, .writing a w) ∈ c.busy → w.result? = none
  named : ∀ task a w, (task, .writing a w) ∈ c.busy → mode.writes ∧ a.isChanged ∧
    ∃ tag, .render task tag (.ok a) ∈ events ∧ w.temporary = Writer.temporaryFor a.output tag
  spoilt : ∀ l, left l → Spoilt d events l
  left : ∀ task, .spoil task ∈ events → mode.writes ∧ ∃ tag a, a.isChanged ∧
    .render task tag (.ok a) ∈ events ∧ left (d.place (Writer.temporaryFor a.output tag))

theorem orderly_start (s : Site) (mode : BuildMode) (bound : Nat) (d : Disk) :
    Orderly s mode d [] (start bound d) fun _ => False :=
  ⟨traces_start s d _, nofun, nofun, fun _ => False.elim, nofun⟩

theorem built_leave {outcome : Report.Outcome} (h : c.Built a) :
    (c.leave busy task outcome).Built a :=
  h.imp fun _ => Or.imp_left (List.mem_cons_of_mem _)

/-- What holds of all writers in flight holds if one writer more is in flight of which it
holds. -/
theorem forall_writing_middle {P : Nat → Artifact → Writer → Prop}
    (h : ∀ other b v, (other, .writing b v) ∈ before ++ (task, job) :: after → P other b v)
    (hw : P task a w) (other : Nat) (b : Artifact) (v : Writer)
    (hmem : (other, .writing b v) ∈ before ++ (task, .writing a w) :: after) : P other b v := by
  by_cases heq : (other, Job.writing b v) = (task, .writing a w)
  · cases heq
    exact hw
  · exact h other b v (mem_append_cons (mem_of_mem_append_cons hmem heq))

namespace Orderly

variable {left : Location → Prop}

/-- An event by which no worker fails half way does not change what is known. -/
theorem snoc (h : Orderly s mode d events c left) (event : Event)
    (hspoil : ∀ task, event ≠ .spoil task) : Orderly s mode d (events ++ [event]) c left := by
  have hmore : ∀ e ∈ events, e ∈ events ++ [event] := fun e => List.mem_append_left _
  refine { h with
    named := fun task a w hw => ?_
    spoilt := fun l hl => (h.spoilt l hl).mono hmore
    left := fun task ht => ?_ }
  · obtain ⟨hwrites, hchanged, tag, hrender, hw⟩ := h.named task a w hw
    exact ⟨hwrites, hchanged, tag, hmore _ hrender, hw⟩
  · obtain ⟨hwrites, tag, a, hchanged, hrender, hleft⟩ := h.left task
      ((List.mem_append.1 ht).resolve_right fun hlast =>
        hspoil task (List.mem_singleton.1 hlast).symm)
    exact ⟨hwrites, tag, a, hchanged, hmore _ hrender, hleft⟩

theorem leave (h : Orderly s mode d events c left)
    (hbusy : c.busy = before ++ (task, job) :: after)
    (hjob : ∀ a w, job = .writing a w → w.holds = false) (outcome : Report.Outcome) :
    Orderly s mode d events (c.leave (before ++ after) task outcome) left := by
  obtain ⟨htraces, hundone, hnamed, hspoilt, hleft⟩ := h
  rw [hbusy] at htraces hundone hnamed
  exact ⟨(htraces.drop hjob).mono fun _ => built_leave,
    fun other a w hmem => hundone other a w (mem_append_cons hmem),
    fun other a w hmem => hnamed other a w (mem_append_cons hmem), hspoilt, hleft⟩

/-- Results that are collected, or met, change nothing. -/
theorem met (h : Orderly s mode d events c left) {c' : Crew} (hdisk : c'.disk = c.disk)
    (hbusy : c'.busy = c.busy) (hbuilt : ∀ a, c.Built a → c'.Built a) :
    Orderly s mode d events c' left := by
  obtain ⟨htraces, hundone, hnamed, hspoilt, hleft⟩ := h
  rw [← hbusy] at hundone hnamed
  refine ⟨?_, hundone, hnamed, hspoilt, hleft⟩
  rw [hdisk, hbusy]
  exact htraces.mono hbuilt

/-- A writer fails half way. -/
theorem spoil {kept : ByteArray} {disk : Disk} (h : Orderly s mode d events c left)
    (hbusy : c.busy = before ++ (task, .writing a w) :: after)
    (hspoil : w.spoil c.disk kept = some disk) (outcome : Report.Outcome) :
    Orderly s mode d (events ++ [.spoil task])
      ({ c with disk := disk }.leave (before ++ after) task outcome)
      fun l => left l ∨ l = d.place w.temporary := by
  obtain ⟨htraces, hundone, hnamed, hspoilt, hleft⟩ := h
  rw [hbusy] at htraces hundone hnamed
  have hmore : ∀ e ∈ events, e ∈ events ++ [.spoil task] := fun e => List.mem_append_left _
  have hlast : Event.spoil task ∈ events ++ [.spoil task] :=
    List.mem_append_right _ (List.mem_singleton_self _)
  obtain ⟨hwrites, hchanged, tag, hrender, htemporary⟩ :=
    hnamed task a w List.mem_append_cons_self
  refine ⟨(htraces.spoil hspoil).mono fun _ => built_leave (c := { c with disk := disk }),
    fun other b v hmem => hundone other b v (mem_append_cons hmem),
    fun other b v hmem => ?_, fun l hl => ?_, fun other hother => ?_⟩
  · obtain ⟨hwrites', hchanged', tag', hrender', hv⟩ := hnamed other b v (mem_append_cons hmem)
    exact ⟨hwrites', hchanged', tag', hmore _ hrender', hv⟩
  · rcases hl with hl | rfl
    · exact (hspoilt l hl).mono hmore
    · exact ⟨task, tag, a, hmore _ hrender, hlast, by rw [htemporary]⟩
  · rcases List.mem_append.1 hother with hother | hother
    · obtain ⟨hwrites', tag', b, hchanged', hrender', hb⟩ := hleft other hother
      exact ⟨hwrites', tag', b, hchanged', hmore _ hrender', Or.inl hb⟩
    · obtain rfl : other = task := Event.spoil.inj (List.mem_singleton.1 hother)
      exact ⟨hwrites, tag, a, hchanged, hmore _ hrender, Or.inr (by rw [htemporary])⟩

theorem step (h : Orderly s mode d events c left) (hok : Tidy s mode d c event)
    (hstep : Step s mode c event c') (hreport : c'.report = none) :
    ∃ left', Orderly s mode d (events ++ [event]) c' left' := by
  cases hstep with
  | acquire =>
    exact ⟨left, (h.snoc .acquire nofun).met rfl rfl fun _ => id⟩
  | spawn holding =>
    have hwriter : ∀ {task a w}, (task, Job.writing a w) ∈ (c.started, .rendering) :: c.busy →
        (task, .writing a w) ∈ c.busy := fun hmem => (List.mem_cons.1 hmem).resolve_left nofun
    refine ⟨left, Orderly.snoc { h with
      traces := h.traces.cons _
      undone := fun task a w hmem => h.undone task a w (hwriter hmem)
      named := fun task a w hmem => h.named task a w (hwriter hmem) } _ nofun⟩
  | settle busy answer unwritten =>
    exact ⟨left, (h.leave busy nofun _).snoc _ nofun⟩
  | @begin before after task tag a busy answer writes changed =>
    obtain ⟨hown, hfree, hnew⟩ := hok writes changed
    obtain ⟨htraces, hundone, hnamed, hspoilt, hleft⟩ :=
      h.snoc (.render task tag (.ok a)) nofun
    rw [busy] at htraces hundone hnamed hnew
    exact ⟨left, htraces.begin ⟨List.mem_of_getElem? answer.1, answer.2⟩ changed hown hfree hnew,
      forall_writing_middle hundone rfl, forall_writing_middle hnamed
        ⟨writes, changed, tag, List.mem_append_right _ (List.mem_singleton_self _), rfl⟩,
      hspoilt, hleft⟩
  | @proceed before after task a w w' d' busy step undone =>
    obtain ⟨htraces, hundone, hnamed, hspoilt, hleft⟩ :=
      h.snoc (.write task) nofun
    rw [busy] at htraces hundone hnamed
    have hnext := htraces.step (hundone task a w List.mem_append_cons_self)
    have hsame := (Writer.step_same c.disk w).2.1
    rw [step] at hnext hsame
    refine ⟨left, hnext.mono ?_, forall_writing_middle hundone undone,
      forall_writing_middle hnamed ?_, hspoilt, hleft⟩
    · rintro b (hb | ⟨-, hdone⟩)
      · exact hb
      · rw [undone] at hdone
        cases hdone
    · rw [hsame]
      exact hnamed task a w List.mem_append_cons_self
  | @conclude before after task a w w' d' result busy step done =>
    obtain ⟨htraces, hundone, hnamed, hspoilt, hleft⟩ :=
      h.snoc (.write task) nofun
    rw [busy] at htraces hundone hnamed
    have hnext := htraces.step (hundone task a w List.mem_append_cons_self)
    rw [step] at hnext
    refine ⟨left, (hnext.drop ?_).mono ?_,
      fun other b v hmem => hundone other b v (mem_append_cons hmem),
      fun other b v hmem => hnamed other b v (mem_append_cons hmem), hspoilt, hleft⟩
    · rintro b v ⟨⟩
      exact Writer.holds_of_result? done
    · rintro b (hb | ⟨rfl, hdone⟩)
      · exact built_leave hb
      · obtain rfl : result = .ok () := Option.some.inj (done.symm.trans hdone)
        exact ⟨task, Or.inl List.mem_cons_self⟩
  | spoil busy part step => exact ⟨_, h.spoil busy step _⟩
  | @lose before after task job busy =>
    refine ⟨left, (h.leave busy ?_ none).snoc _ nofun⟩
    rintro a w rfl
    exact absurd (by rw [busy]; exact List.mem_append_cons_self) (hok a w)
  | @collect before after task result all ended =>
    refine ⟨left, (h.snoc (.join task) nofun).met rfl rfl ?_⟩
    rintro a ⟨other, hmem | hmem⟩
    · rw [ended] at hmem
      by_cases heq : (other, some (Except.ok a)) = (task, some result)
      · cases heq
        exact ⟨task, Or.inr (List.mem_append_right _ List.mem_cons_self)⟩
      · exact ⟨other, Or.inl (mem_of_mem_append_cons hmem heq)⟩
    · exact ⟨other, Or.inr (List.mem_append_left _ hmem)⟩
  | @miss before after task all ended =>
    refine ⟨left, (h.snoc (.join task) nofun).met rfl rfl ?_⟩
    rintro a ⟨other, hmem | hmem⟩
    · rw [ended] at hmem
      exact ⟨other, Or.inl (mem_of_mem_append_cons hmem nofun)⟩
    · exact ⟨other, Or.inr hmem⟩
  | report => cases hreport

end Orderly

/-- A report is made by its own step. -/
theorem Step.report_eq_none (hstep : Step s mode c event c') (h : c'.report = none) :
    c.report = none := by
  cases hstep <;> first | exact h | cases h

/-- What the step to a report does. -/
theorem Step.eq_report (hstep : Step s mode c .report c') :
    c.busy = [] ∧ c.ended = [] ∧ c.report = none ∧ c'.disk = (s.pruneAfter mode c.disk).1 ∧
      c'.report = some (assemble s.manifest c.collected (s.pruneAfter mode c.disk).2) := by
  cases hstep with
  | report all busy ended first => exact ⟨busy, ended, first, rfl, rfl⟩

theorem Run.exists_orderly (h : Run s mode (Tidy s mode d) (start bound d) events c)
    (hreport : c.report = none) : ∃ left, Orderly s mode d events c left := by
  induction h with
  | nil => exact ⟨_, orderly_start s mode bound d⟩
  | snoc run ok step ih =>
    obtain ⟨left, horderly⟩ := ih (step.report_eq_none hreport)
    exact horderly.step ok step hreport

end Crew

end Folio
