import Mathlib
import Folio.Proofs.Site.Traces

/-!
# Writers that share a disk

The writers of a team do their steps one at a time and in any order, for which a schedule
names the writer of each step (`Team.run`). Several writers may have one target, but their
temporary files have names of their own (`Team.Apart`).

What a step can do is said once, by `Writer.Move`. So a location at any time is as it was at
first, or it holds what a writer that is done well was to put there, or a directory was made
there on the way to a target, or it is the place of a temporary file (`Team.Sound`), and a
temporary file is there only as long as its writer holds it.

`Team.run_atomic` : a target is never seen half written, and when all writers are done no
temporary file is left. But a target need not be a file at all. Above a target there are
directories, and a writer makes them even if one of them has the name of another target :
`Team.nested_opened`.
-/

namespace Folio

namespace Writer

variable {d : Disk} {w : Writer} {l : Location}

/-- What a step does to a disk `d` and to a writer `w`. -/
inductive Move (d : Disk) (w : Writer) (d' : Disk) (w' : Writer) : Prop
  | folders (before : w.holds = false)
    (grown : Disk.Grown (fun l => ∃ q, q.Above w.target ∧ l = d.place q) d d')
    (after : w'.holds = false)
  | temporary (read : d'.read w.temporary = .ok w.contents)
    (node : ∀ l, d'.node? l = if l = d.place w.temporary then some (.file w.contents)
      else d.node? l)
    (after : w'.holds = true)
  | rename
    (node : ∀ l, d'.node? l = if l = d.place w.target then some (.file w.contents)
      else if l = d.place w.temporary then none else d.node? l)
    (after : w'.result? = some (.ok ()))
  | discard
    (node : ∀ l, d'.node? l = if l = d.place w.temporary then none else d.node? l)
    (after : w'.holds = false)
  | idle (disk : d' = d) (after : w'.holds = w.holds)

theorem move_step (hheld : w.holds = true → d.read w.temporary = .ok w.contents) :
    Move d w (w.step d).1 (w.step d).2 := by
  obtain ⟨target, temporary, contents, phase⟩ := w
  cases phase with
  | makeFolders =>
    refine .folders rfl ?_ ?_
    · rw [step_makeFolders]
      exact Disk.grown_makeFolders d target
    · simp only [step]
      split
      · rfl
      · split <;> rfl
  | writeTemporary =>
    simp only [step]
    split
    · rename_i d' hwritten
      obtain ⟨-, -, hnode⟩ := Disk.writeFile_eq_ok_node? hwritten
      exact .temporary (Disk.writeFile_eq_ok hwritten).1 hnode rfl
    · exact .idle rfl rfl
  | rename =>
    simp only [step]
    split
    · rename_i d' hrenamed
      obtain ⟨c, hread, -, -, hnode⟩ := Disk.rename_eq_ok_node? hrenamed
      obtain rfl : c = contents := Except.ok.inj (hread.symm.trans (hheld rfl))
      exact .rename hnode rfl
    · exact .idle rfl rfl
  | discard e =>
    obtain ⟨d', hremoved, -, hnode⟩ := Disk.removeFile_of_read (hheld rfl)
    simp only [step]
    rw [hremoved]
    exact .discard hnode rfl
  | done result => exact .idle rfl rfl

theorem step_of_result? {result : Except SystemError Unit} (h : w.result? = some result)
    (d : Disk) : w.step d = (d, w) := by
  obtain ⟨target, temporary, contents, phase⟩ := w
  cases phase with
  | done r => rfl
  | _ => cases h

namespace Move

variable {d' : Disk} {w' : Writer}

/-- What may be different at a location after a step. -/
theorem node? (h : Move d w d' w') (l : Location) :
    d'.node? l = d.node? l ∨ l = d.place w.temporary ∨
      (l = d.place w.target ∧ w'.result? = some (.ok ()) ∧
        d'.node? l = some (.file w.contents)) ∨
      d.node? l = none ∧ d'.node? l = some .directory ∧
        ∃ q, q.Above w.target ∧ l = d.place q := by
  cases h with
  | folders _ grown _ => exact (grown.node l).imp_right fun h => Or.inr (Or.inr h)
  | temporary _ node _ =>
    by_cases hl : l = d.place w.temporary
    · exact Or.inr (Or.inl hl)
    · exact Or.inl (by rw [node, if_neg hl])
  | rename node after =>
    by_cases htarget : l = d.place w.target
    · exact Or.inr (Or.inr (Or.inl ⟨htarget, after, by rw [node, if_pos htarget]⟩))
    · by_cases hl : l = d.place w.temporary
      · exact Or.inr (Or.inl hl)
      · exact Or.inl (by rw [node, if_neg htarget, if_neg hl])
  | discard node _ =>
    by_cases hl : l = d.place w.temporary
    · exact Or.inr (Or.inl hl)
    · exact Or.inl (by rw [node, if_neg hl])
  | idle disk _ => exact Or.inl (by rw [disk])

/-- A temporary file that is held afterwards is there. -/
theorem read (h : Move d w d' w') (hheld : w.holds = true → d.read w.temporary = .ok w.contents)
    (hafter : w'.holds = true) : d'.read w.temporary = .ok w.contents := by
  cases h with
  | temporary read _ _ => exact read
  | rename _ after => rw [holds_of_result? after] at hafter; cases hafter
  | folders _ _ after => rw [after] at hafter; cases hafter
  | discard _ after => rw [after] at hafter; cases hafter
  | idle disk after =>
    rw [disk]
    exact hheld (after ▸ hafter)

/-- A temporary file that is not held afterwards is gone. -/
theorem file_temporary (h : Move d w d' w') (hne : d.place w.temporary ≠ d.place w.target)
    (hafter : w'.holds = false) {c : ByteArray}
    (hc : d'.node? (d.place w.temporary) = some (.file c)) :
    w.holds = false ∧ d.node? (d.place w.temporary) = some (.file c) := by
  cases h with
  | folders before grown _ => exact ⟨before, grown.file_iff.1 hc⟩
  | temporary _ _ after => rw [after] at hafter; cases hafter
  | rename node _ => rw [node, if_neg hne, if_pos rfl] at hc; cases hc
  | discard node _ => rw [node, if_pos rfl] at hc; cases hc
  | idle disk after => exact ⟨after ▸ hafter, disk ▸ hc⟩

end Move

end Writer

/-- Writers that share a disk. -/
structure Team (ι : Type) where
  disk : Disk
  writer : ι → Writer

namespace Team

variable {ι : Type} {t u : Team ι} {l : Location}

/-- Whether all writers have a temporary file for themselves, which is nobody's target. -/
structure Apart (t : Team ι) : Prop where
  temporaries : Function.Injective fun i => t.disk.place (t.writer i).temporary
  targets : ∀ i j, t.disk.place (t.writer i).temporary ≠ t.disk.place (t.writer j).target

/-- Whether a team `u`, which was `t` at first, has put something in its place : what a
writer that is done well was to write. -/
def Replaced (t u : Team ι) (l : Location) : Prop :=
  ∃ i, l = t.disk.place (t.writer i).target ∧ (u.writer i).result? = some (.ok ()) ∧
    u.disk.node? l = some (.file (t.writer i).contents)

/-- Whether a team `u`, which was `t` at first, has made a directory on the way to a
target. -/
def Opened (t u : Team ι) (l : Location) : Prop :=
  t.disk.node? l = none ∧ u.disk.node? l = some .directory ∧
    ∃ i q, Path.Above q (t.writer i).target ∧ l = t.disk.place q

section

variable [DecidableEq ι]

/-- One of the writers does a step. -/
def step (t : Team ι) (i : ι) : Team ι :=
  ⟨((t.writer i).step t.disk).1, Function.update t.writer i ((t.writer i).step t.disk).2⟩

/-- The writers that a schedule names do a step each, one after the other. -/
def run (t : Team ι) (schedule : List ι) : Team ι :=
  schedule.foldl step t

theorem step_writer_self (t : Team ι) (i : ι) :
    (t.step i).writer i = ((t.writer i).step t.disk).2 :=
  Function.update_self i _ _

theorem step_writer_of_ne {i j : ι} (h : j ≠ i) (t : Team ι) :
    (t.step i).writer j = t.writer j :=
  Function.update_of_ne h _ _

theorem same_step (t : Team ι) (i j : ι) : ((t.step i).writer j).target = (t.writer j).target ∧
    ((t.step i).writer j).temporary = (t.writer j).temporary ∧
    ((t.step i).writer j).contents = (t.writer j).contents := by
  by_cases h : j = i
  · rw [h, step_writer_self]
    exact Writer.step_same _ _
  · rw [step_writer_of_ne h]
    exact ⟨rfl, rfl, rfl⟩

theorem result?_step {j : ι} {result : Except SystemError Unit}
    (h : (t.writer j).result? = some result) (i : ι) :
    ((t.step i).writer j).result? = some result := by
  by_cases hj : j = i
  · rw [hj, step_writer_self, ← hj, Writer.step_of_result? h]
    exact h
  · rwa [step_writer_of_ne hj]

theorem stepsLeft_run_le (t : Team ι) (schedule : List ι) (i : ι) :
    ((t.run schedule).writer i).stepsLeft ≤ (t.writer i).stepsLeft - schedule.count i := by
  induction schedule generalizing t with
  | nil => exact Nat.le_refl _
  | cons j schedule ih =>
    have hrest := ih (t.step j)
    rw [run, List.foldl_cons, ← run]
    by_cases h : i = j
    · have hstep := Writer.stepsLeft_step_le t.disk (t.writer i)
      rw [← h, step_writer_self] at hrest
      rw [← h, List.count_cons_self]
      omega
    · rw [step_writer_of_ne h] at hrest
      rwa [List.count_cons_of_ne (Ne.symm h)]

/-- After four steps of its own a writer is done. -/
theorem isSome_result?_of_count {schedule : List ι} {i : ι} (h : 4 ≤ schedule.count i) :
    ((t.run schedule).writer i).result?.isSome := by
  have hleft := stepsLeft_run_le t schedule i
  have hfirst : (t.writer i).stepsLeft ≤ 4 := by
    unfold Writer.stepsLeft
    split <;> decide
  have hnone : ((t.run schedule).writer i).stepsLeft ≤ 0 := by omega
  exact Writer.isSome_result?_run (n := 0) (d := t.disk) hnone

end

/-! ## What is known between two steps -/

/-- What can be said of a team `u` that was `t` at first. -/
structure Sound (t u : Team ι) : Prop where
  current : u.disk.current = t.disk.current
  same : ∀ i, (u.writer i).target = (t.writer i).target ∧
    (u.writer i).temporary = (t.writer i).temporary ∧
    (u.writer i).contents = (t.writer i).contents
  node : ∀ l, u.disk.node? l = t.disk.node? l ∨ t.Replaced u l ∨ t.Opened u l ∨
    ∃ i, l = t.disk.place (t.writer i).temporary
  /-- A temporary file is there as long as it is held. -/
  held : ∀ i, (u.writer i).holds = true →
    u.disk.read (u.writer i).temporary = .ok (u.writer i).contents
  /-- A file in the place of one that is not held was there at first. -/
  free : ∀ i c, (u.writer i).holds = false →
    u.disk.node? (u.disk.place (u.writer i).temporary) = some (.file c) →
      t.disk.node? (t.disk.place (t.writer i).temporary) = some (.file c)

theorem sound_start (h : ∀ i, (t.writer i).phase = .makeFolders) : Sound t t where
  current := rfl
  same _ := ⟨rfl, rfl, rfl⟩
  node _ := Or.inl rfl
  held i hholds := by
    rw [Writer.holds, h i] at hholds
    cases hholds
  free _ _ _ := id

namespace Sound

theorem place (h : Sound t u) (p : Path) : u.disk.place p = t.disk.place p :=
  Disk.place_congr h.current p

/-- A step leaves the temporary files of the other writers alone. -/
theorem untouched (h : Sound t u) (hapart : t.Apart) {i j : ι} (hj : j ≠ i) :
    ¬(u.disk.place (u.writer j).temporary = u.disk.place (u.writer i).temporary ∨
      u.disk.place (u.writer j).temporary = u.disk.place (u.writer i).target ∧
        ((u.writer i).step u.disk).2.result? = some (.ok ())) := by
  rw [h.place, h.place, h.place, (h.same j).2.1, (h.same i).2.1, (h.same i).1]
  rintro (heq | ⟨heq, -⟩)
  · exact hj (hapart.temporaries heq)
  · exact hapart.targets j i heq

section

variable [DecidableEq ι]

theorem current_step (h : Sound t u) (i : ι) : (u.step i).disk.current = t.disk.current :=
  (Writer.frame_step u.disk (u.writer i)).current.trans h.current

theorem same_step (h : Sound t u) (i j : ι) :
    ((u.step i).writer j).target = (t.writer j).target ∧
      ((u.step i).writer j).temporary = (t.writer j).temporary ∧
      ((u.step i).writer j).contents = (t.writer j).contents := by
  obtain ⟨htarget, htemporary, hcontents⟩ := h.same j
  obtain ⟨htarget', htemporary', hcontents'⟩ := Team.same_step u i j
  exact ⟨htarget'.trans htarget, htemporary'.trans htemporary, hcontents'.trans hcontents⟩

theorem move (h : Sound t u) (i : ι) : Writer.Move u.disk (u.writer i) (u.step i).disk
    ((u.writer i).step u.disk).2 :=
  Writer.move_step (h.held i)

theorem node_step (h : Sound t u) (i : ι) (l : Location) :
    (u.step i).disk.node? l = t.disk.node? l ∨ t.Replaced (u.step i) l ∨ t.Opened (u.step i) l ∨
      ∃ j, l = t.disk.place (t.writer j).temporary := by
  obtain ⟨htarget, htemporary, hcontents⟩ := h.same i
  rcases (h.move i).node? l with hsame | hl | ⟨hl, hdone, hnode⟩ | ⟨hnone, hnew, q, hq, hl⟩
  · rcases h.node l with hfirst | ⟨j, hl, hdone, hnode⟩ | ⟨hnone, hnode, habove⟩ | hl
    · exact Or.inl (hsame.trans hfirst)
    · exact Or.inr (Or.inl ⟨j, hl, result?_step hdone i, hsame.trans hnode⟩)
    · exact Or.inr (Or.inr (Or.inl ⟨hnone, hsame.trans hnode, habove⟩))
    · exact Or.inr (Or.inr (Or.inr hl))
  · rw [h.place, htemporary] at hl
    exact Or.inr (Or.inr (Or.inr ⟨i, hl⟩))
  · rw [h.place, htarget] at hl
    rw [hcontents] at hnode
    rw [← step_writer_self] at hdone
    exact Or.inr (Or.inl ⟨i, hl, hdone, hnode⟩)
  · -- Nothing stood where a directory was made, so it is new unless a temporary file was there.
    rw [h.place] at hl
    rw [htarget] at hq
    rcases h.node l with hfirst | ⟨j, -, -, hnode⟩ | ⟨-, hnode, -⟩ | hl
    · exact Or.inr (Or.inr (Or.inl ⟨hfirst ▸ hnone, hnew, i, q, hq, hl⟩))
    · rw [hnone] at hnode
      cases hnode
    · rw [hnone] at hnode
      cases hnode
    · exact Or.inr (Or.inr (Or.inr hl))

theorem held_step (h : Sound t u) (hapart : t.Apart) (i j : ι)
    (hholds : ((u.step i).writer j).holds = true) :
    (u.step i).disk.read ((u.step i).writer j).temporary =
      .ok ((u.step i).writer j).contents := by
  obtain ⟨-, htemporary, hcontents⟩ := Team.same_step u i j
  rw [htemporary, hcontents]
  by_cases hj : j = i
  · subst hj
    rw [step_writer_self] at hholds
    exact (h.move j).read (h.held j) hholds
  · rw [step_writer_of_ne hj] at hholds
    exact (Writer.frame_step u.disk (u.writer i)).read (h.held j hholds) (h.untouched hapart hj)

theorem free_step (h : Sound t u) (hapart : t.Apart) (i j : ι) (c : ByteArray)
    (hholds : ((u.step i).writer j).holds = false)
    (hc : (u.step i).disk.node? ((u.step i).disk.place ((u.step i).writer j).temporary) =
      some (.file c)) :
    t.disk.node? (t.disk.place (t.writer j).temporary) = some (.file c) := by
  have hplace : (u.step i).disk.place ((u.step i).writer j).temporary =
      u.disk.place (u.writer j).temporary := by
    rw [(Team.same_step u i j).2.1]
    exact Disk.place_congr (Writer.frame_step u.disk (u.writer i)).current _
  rw [hplace] at hc
  by_cases hj : j = i
  · subst hj
    rw [step_writer_self] at hholds
    have hne : u.disk.place (u.writer j).temporary ≠ u.disk.place (u.writer j).target := by
      rw [h.place, h.place, (h.same j).1, (h.same j).2.1]
      exact hapart.targets j j
    obtain ⟨hbefore, hc⟩ := (h.move j).file_temporary hne hholds hc
    exact h.free j c hbefore hc
  · rw [step_writer_of_ne hj] at hholds
    have hframe := Writer.frame_step u.disk (u.writer i)
    exact h.free j c hholds ((hframe.file_iff (h.untouched hapart hj)).1 hc)

theorem step (h : Sound t u) (hapart : t.Apart) (i : ι) : Sound t (u.step i) where
  current := h.current_step i
  same := h.same_step i
  node := h.node_step i
  held := h.held_step hapart i
  free := h.free_step hapart i

theorem run (h : Sound t u) (hapart : t.Apart) (schedule : List ι) :
    Sound t (u.run schedule) := by
  induction schedule generalizing u with
  | nil => exact h
  | cons i schedule ih => exact ih (h.step hapart i)

end

/-- A target is nobody's temporary file. -/
theorem node_target (h : Sound t u) (hapart : t.Apart) (i : ι) :
    u.disk.node? (t.disk.place (t.writer i).target) =
        t.disk.node? (t.disk.place (t.writer i).target) ∨
      t.Replaced u (t.disk.place (t.writer i).target) ∨
      t.Opened u (t.disk.place (t.writer i).target) := by
  rcases h.node (t.disk.place (t.writer i).target) with hsame | hdone | hopened | ⟨j, hl⟩
  · exact Or.inl hsame
  · exact Or.inr (Or.inl hdone)
  · exact Or.inr (Or.inr hopened)
  · exact absurd hl.symm (hapart.targets j i)

/-- No temporary file is left of writers that are done. -/
theorem file_of_done (h : Sound t u) (hdone : ∀ i, (u.writer i).result?.isSome) {c : ByteArray}
    (hc : u.disk.node? l = some (.file c)) :
    t.disk.node? l = some (.file c) ∨ t.Replaced u l := by
  rcases h.node l with hsame | hreplaced | ⟨-, hnode, -⟩ | ⟨i, rfl⟩
  · exact Or.inl (hsame ▸ hc)
  · exact Or.inr hreplaced
  · rw [hc] at hnode
    cases hnode
  · obtain ⟨result, hresult⟩ := Option.isSome_iff_exists.1 (hdone i)
    rw [← h.place, ← (h.same i).2.1] at hc
    exact Or.inl (h.free i c (Writer.holds_of_result? hresult) hc)

end Sound

/-! ## Targets -/

section

variable [DecidableEq ι]

/-- Targets are replaced at one stroke. Whatever steps writers with temporary files of their
own have done in whatever order, a target is as it was at first, or holds the complete
contents of a writer that is done well, or is a directory on the way to another target,
made where nothing stood. The last cannot be if no target has the place of a path above
another one. After four steps of its own a writer is done, and when all are done every file
was there at first or is a target with complete contents. -/
theorem run_atomic (hstart : ∀ i, (t.writer i).phase = .makeFolders) (hapart : t.Apart)
    (schedule : List ι) :
    (∀ i, (t.run schedule).disk.node? (t.disk.place (t.writer i).target) =
          t.disk.node? (t.disk.place (t.writer i).target) ∨
        t.Replaced (t.run schedule) (t.disk.place (t.writer i).target) ∨
        t.Opened (t.run schedule) (t.disk.place (t.writer i).target)) ∧
    ((∀ i j q, Path.Above q (t.writer i).target →
        t.disk.place q ≠ t.disk.place (t.writer j).target) →
      ∀ i, ¬t.Opened (t.run schedule) (t.disk.place (t.writer i).target)) ∧
    (∀ i, 4 ≤ schedule.count i → ((t.run schedule).writer i).result?.isSome) ∧
    ((∀ i, ((t.run schedule).writer i).result?.isSome) →
      ∀ l c, (t.run schedule).disk.node? l = some (.file c) →
        t.disk.node? l = some (.file c) ∨ t.Replaced (t.run schedule) l) := by
  have h : Sound t (t.run schedule) := (sound_start hstart).run hapart schedule
  refine ⟨h.node_target hapart, ?_, fun i => isSome_result?_of_count,
    fun hdone l c => h.file_of_done hdone⟩
  rintro hbeside i ⟨-, -, j, q, hq, hl⟩
  exact hbeside j i q hq hl.symm

/-- Two writers with the given targets, on an empty disk. -/
def pair (first second : Path) : Team Bool :=
  ⟨.empty, fun i =>
    if i then .start second ['2'] (Text.bytes ['y']) else .start first ['1'] (Text.bytes ['x'])⟩

theorem apart_pair {first second : Path}
    (h : (pair first second).disk.place (Writer.temporaryFor first ['1']) ≠
      (pair first second).disk.place (Writer.temporaryFor second ['2']))
    (htargets : ∀ i j, (pair first second).disk.place ((pair first second).writer i).temporary ≠
      (pair first second).disk.place ((pair first second).writer j).target) :
    (pair first second).Apart := by
  refine ⟨fun i j hij => ?_, htargets⟩
  cases i <;> cases j
  · rfl
  · exact absurd hij h
  · exact absurd hij.symm h
  · rfl

/-- Two writers of one file are done after eight steps, and one of them has its way. -/
theorem run_atomic_shared :
    let t := pair (.ofString "/a") (.ofString "/a")
    let u := t.run [false, true, true, false, false, true, true, false]
    t.Apart ∧ (∀ i, (u.writer i).result?.isSome) ∧
      (∀ i, ¬t.Opened u (t.disk.place (t.writer i).target)) ∧
      ∀ l c, u.disk.node? l = some (.file c) → t.Replaced u l := by
  intro t u
  have hapart : t.Apart := apart_pair (by decide) (by decide)
  have hstart : ∀ i, (t.writer i).phase = .makeFolders := by
    intro i
    cases i <;> rfl
  obtain ⟨-, hopened, hdone, hfiles⟩ :=
    run_atomic hstart hapart [false, true, true, false, false, true, true, false]
  have hall := fun i => hdone i (by cases i <;> decide)
  have habove : ∀ p q, Path.Above q p → p = .ofString "/a" → q = .ofString "/" := by
    intro p q hq hp
    induction hq with
    | parent hparent =>
      rw [hp] at hparent
      exact (Option.some.inj hparent).symm
    | step _ hparent ih =>
      rw [ih hp] at hparent
      cases hparent
  refine ⟨hapart, hall, hopened fun i j q hq => ?_,
    fun l c hc => (hfiles hall l c hc).resolve_left fun h => ?_⟩
  · have htarget : ∀ i, (t.writer i).target = .ofString "/a" := by
      intro i
      cases i <;> rfl
    rw [habove _ q hq (htarget i), htarget j]
    decide
  · cases l <;> cases h

/-- The first writer makes a directory where the second one is to write. -/
theorem nested_opened :
    let t := pair (.ofString "/a/b") (.ofString "/a")
    let l := t.disk.place (t.writer true).target
    (∀ i, (t.writer i).phase = .makeFolders) ∧ t.Apart ∧
      t.disk.node? l = none ∧ (t.run [false]).disk.node? l = some .directory := by
  refine ⟨fun i => ?_, apart_pair (by decide) (by decide), by cbv, by cbv⟩
  cases i <;> rfl

end

end Team

end Folio
