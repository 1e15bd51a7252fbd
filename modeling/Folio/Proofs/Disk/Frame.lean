import Folio.Disk.Writer
import Folio.Proofs.Disk.Find

/-!
# What changes of a disk leave alone

A `Disk.Frame` bounds a change : outside the locations it touches nothing is different
but that directories may be new, no directory is gone, and a file is gone only where
files may be removed. What was read outside the touched locations is read again
(`Disk.Frame.read`).

Each change has its frame. Making directories touches no file, writing touches the file
it writes, and a `Writer` touches its temporary file and, only if it is successful, its
target (`Disk.frame_replaceFile`), which then reads back what was to be written
(`Disk.read_replaceFile`).
-/

namespace Folio

namespace Disk

variable {d d' d'' : Disk} {p q : Path} {l x : Location} {c : ByteArray}
  {touched touched' removed removed' : Location → Prop}

/-! ## Frames -/

/-- The second disk is the first one after a change which touches nothing but what
stands at the locations `touched` and removes nothing but what stands at `removed`. -/
structure Frame (touched removed : Location → Prop) (d d' : Disk) : Prop where
  current : d'.current = d.current
  /-- What is not touched is as it was; directories may be new. -/
  node : ∀ {l}, ¬touched l →
    d'.node? l = d.node? l ∨ d.node? l = none ∧ d'.node? l = some .directory
  directory : ∀ {l}, d.node? l = some .directory → d'.node? l = some .directory
  stays : ∀ {l c}, ¬removed l → d.node? l = some (.file c) →
    ∃ c', d'.node? l = some (.file c')
  /-- The root does not become a file. -/
  root : [] ∉ d.files → [] ∉ d'.files

namespace Frame

theorem refl (touched removed : Location → Prop) (d : Disk) : Frame touched removed d d :=
  ⟨rfl, fun _ => Or.inl rfl, id, fun _ h => ⟨_, h⟩, id⟩

theorem mono (h : Frame touched removed d d') (ht : ∀ l, touched l → touched' l)
    (hr : ∀ l, removed l → removed' l) : Frame touched' removed' d d' :=
  ⟨h.current, fun hl => h.node fun htl => hl (ht _ htl), h.directory,
    fun hl => h.stays fun hrl => hl (hr _ hrl), h.root⟩

theorem trans (h : Frame touched removed d d') (h' : Frame touched removed d' d'') :
    Frame touched removed d d'' where
  current := h'.current.trans h.current
  node := by
    intro l hl
    rcases h.node hl with heq | ⟨hnone, hnew⟩
    · rw [← heq]
      exact h'.node hl
    · exact Or.inr ⟨hnone, h'.directory hnew⟩
  directory hl := h'.directory (h.directory hl)
  stays := by
    intro l c hl hc
    obtain ⟨c', hc'⟩ := h.stays hl hc
    exact h'.stays hl hc'
  root hroot := h'.root (h.root hroot)

/-- An untouched file holds what it held, and none is new. -/
theorem file_iff (h : Frame touched removed d d') (hl : ¬touched l) :
    d'.node? l = some (.file c) ↔ d.node? l = some (.file c) := by
  rcases h.node hl with heq | ⟨hnone, hnew⟩
  · rw [heq]
  · rw [hnone, hnew]
    exact iff_of_false nofun nofun

theorem find? (h : Frame touched removed d d') (hp : d.find? p = .ok l)
    (hl : (d'.node? l).isSome) : d'.find? p = .ok l :=
  find?_of_directories hp h.current (fun _ => h.directory) hl

/-- What is read at an untouched place is read again. -/
theorem read (h : Frame touched removed d d') (hp : d.read p = .ok c)
    (hl : ¬touched (d.place p)) : d'.read p = .ok c := by
  obtain ⟨hfind, hnode⟩ := read_eq_ok_iff.1 hp
  have hnode' : d'.node? (d.place p) = some (.file c) := (h.file_iff hl).2 hnode
  rw [read_eq_ok_iff, place_congr h.current]
  exact ⟨h.find? hfind (by rw [hnode']; rfl), hnode'⟩

/-- A file stays a file where none is removed. -/
theorem isFile (h : Frame touched removed d d') (hp : d.isFile p)
    (hl : ¬removed (d.place p)) : d'.isFile p := by
  obtain ⟨c, hc⟩ := isFile_iff.1 hp
  obtain ⟨hfind, hnode⟩ := read_eq_ok_iff.1 hc
  obtain ⟨c', hnode'⟩ := h.stays hl hnode
  rw [isFile_iff]
  refine ⟨c', ?_⟩
  rw [read_eq_ok_iff, place_congr h.current]
  exact ⟨h.find? hfind (by rw [hnode']; rfl), hnode'⟩

theorem isDirectory (h : Frame touched removed d d') (hp : d.isDirectory p) :
    d'.isDirectory p := by
  obtain ⟨hfind, hnode⟩ := isDirectory_iff.1 hp
  have hnode' : d'.node? (d.place p) = some .directory := h.directory hnode
  rw [isDirectory_iff, place_congr h.current]
  exact ⟨h.find? hfind (by rw [hnode']; rfl), hnode'⟩

/-- A path of names below a directory leads to a file after the change if and only if it
has led to one before, as long as its place is not touched. -/
theorem isFile_join_iff (h : Frame touched removed d d') (hp : d.isDirectory p)
    (hp' : p.text ≠ []) (hq : ∀ n ∈ q.text.splitOn '/', Text.IsName n)
    (hl : ¬touched (d.place (p.join q))) : d'.isFile (p.join q) ↔ d.isFile (p.join q) := by
  have hrel : ¬q.isAbsolute := Path.not_isAbsolute_of_isName hq
  have hplace : d.place (p.join q) = d.place p ++ q.text.splitOn '/' := by
    rw [place_join hrel, Location.foldl_advance_of_isName hq]
  constructor
  · intro hfile
    obtain ⟨c, hc⟩ := isFile_iff.1 hfile
    obtain ⟨hfind, hnode⟩ := read_eq_ok_iff.1 hc
    rw [place_congr h.current, h.file_iff hl] at hnode
    -- The file was there before, and the way to it is the same.
    obtain ⟨husable, -, hgo⟩ := (find?_join_iff hp' hrel).1 hfind
    rw [place_congr h.current] at hgo
    have hsome : (d.node? (d.place p ++ q.text.splitOn '/')).isSome := by
      rw [← hplace, hnode]
      rfl
    refine isFile_iff.2 ⟨c, read_eq_ok_iff.2 ⟨?_, hnode⟩⟩
    rw [hplace]
    exact (find?_join_iff hp' hrel).2
      ⟨husable, (isDirectory_iff.1 hp).1, foldlM_step_of_node hq hgo hsome⟩
  · intro hfile
    obtain ⟨c, hc⟩ := isFile_iff.1 hfile
    exact isFile_iff.2 ⟨c, h.read hc hl⟩

end Frame

/-! ## Single nodes -/

theorem node?_put {n : Text} {v : DiskNode} (hl : d.node? l = some .directory)
    (hn : d.node? (l ++ [n]) ≠ some .directory) (x : Location) :
    (d.put l n v hl hn).node? x = if x = l ++ [n] then some v else d.node? x :=
  nodeIn_cons (List.append_ne_nil_of_right_ne_nil l (List.cons_ne_nil n [])) x

theorem putAt_eq_ok {n : Text} {v : DiskNode} (h : d.putAt l n v = .ok d') :
    d.node? (l ++ [n]) ≠ some .directory ∧ d'.current = d.current ∧
      (∀ x, d'.node? x = if x = l ++ [n] then some v else d.node? x) ∧
      ([] ∉ d.files → [] ∉ d'.files) := by
  unfold putAt at h
  split at h
  · rename_i hl
    split at h
    · rename_i hn
      obtain rfl := Except.ok.inj h
      refine ⟨hn, rfl, node?_put hl hn, fun hroot hmem => hroot ?_⟩
      obtain ⟨e, he, hfile⟩ := List.mem_filterMap.1 hmem
      rcases List.mem_cons.1 he with rfl | he
      · cases v with
        | directory => cases hfile
        | file c => exact absurd (Option.some.inj hfile) (by simp)
      · exact List.mem_filterMap.2 ⟨e, (List.mem_filter.1 he).1, hfile⟩
    · cases h
  · cases h

/-- Once a file is put at a location it stands there, and nothing else is touched. -/
theorem putAt_file {n : Text} (h : d.putAt l n (.file c) = .ok d') :
    d'.node? (l ++ [n]) = some (.file c) ∧
      Frame (· = l ++ [n]) (fun _ => False) d d' := by
  obtain ⟨hn, hcurrent, hnode, hroot⟩ := putAt_eq_ok h
  have hnew : d'.node? (l ++ [n]) = some (.file c) := by rw [hnode, if_pos rfl]
  refine ⟨hnew, hcurrent, fun hx => Or.inl (by rw [hnode, if_neg hx]), ?_, ?_, hroot⟩
  · intro x hx
    rw [hnode, if_neg, hx]
    rintro rfl
    exact hn hx
  · intro x c' _ hx
    by_cases heq : x = l ++ [n]
    · exact ⟨c, by rw [heq, hnew]⟩
    · exact ⟨c', by rw [hnode, if_neg heq, hx]⟩

theorem nil_notMem_files_removeTree (h : [] ∉ d.files) (l : Location) :
    [] ∉ (d.removeTree l).files := by
  intro hmem
  obtain ⟨e, he, hfile⟩ := List.mem_filterMap.1 hmem
  exact h (List.mem_filterMap.2 ⟨e, (List.mem_filter.1 he).1, hfile⟩)

/-- Below what is no directory there is nothing, so nothing else goes with it. -/
theorem node?_removeTree (h : d.node? l ≠ some .directory) (x : Location) :
    (d.removeTree l).node? x = if x = l then none else d.node? x := by
  have hl : l ≠ [] := by
    rintro rfl
    exact h rfl
  by_cases hx : x = []
  · rw [hx, if_neg (Ne.symm hl)]
    rfl
  have hnode : (d.removeTree l).node? x = if l.isPrefixOf x then none else d.node? x :=
    nodeIn_filter d.nodes (fun y => l.isPrefixOf y) hx
  rw [hnode]
  by_cases heq : x = l
  · rw [heq, if_pos rfl, if_pos (List.isPrefixOf_iff_prefix.2 (List.prefix_refl l))]
  rw [if_neg heq]
  by_cases hbelow : l.isPrefixOf x
  · obtain ⟨names, rfl⟩ := List.isPrefixOf_iff_prefix.1 hbelow
    rw [if_pos hbelow]
    cases hsome : d.node? (l ++ names) with
    | none => rfl
    | some v =>
      have hne : names ≠ [] := fun hnil => heq (by rw [hnil, List.append_nil])
      exact absurd (directory_of_append (by rw [hsome]; rfl) hne) h
  · rw [if_neg hbelow]

/-- No directory is new where something was removed. -/
theorem removeTree_ne_directory (h : d.node? l ≠ some .directory)
    (hx : d.node? x ≠ some .directory) : (d.removeTree l).node? x ≠ some .directory := by
  rw [node?_removeTree h]
  split
  · exact nofun
  · exact hx

/-- What a removal touches and removes is what stands at its location. -/
theorem frame_removeTree (h : d.node? l ≠ some .directory) :
    Frame (· = l) (· = l) d (d.removeTree l) where
  current := rfl
  node hx := Or.inl (by rw [node?_removeTree h, if_neg hx])
  directory := by
    intro x hx
    rw [node?_removeTree h, if_neg, hx]
    rintro rfl
    exact h hx
  stays hx hc := ⟨_, by rw [node?_removeTree h, if_neg hx, hc]⟩
  root hroot := nil_notMem_files_removeTree hroot l

/-- Removing what stands at several locations, none of which is a directory. -/
theorem node?_foldl_removeTree {locations : List Location}
    (h : ∀ l ∈ locations, d.node? l ≠ some .directory) (x : Location) :
    (locations.foldl removeTree d).node? x = if x ∈ locations then none else d.node? x := by
  induction locations generalizing d with
  | nil => rw [if_neg List.not_mem_nil]; rfl
  | cons l rest ih =>
    obtain ⟨hl, hrest⟩ := List.forall_mem_cons.1 h
    rw [List.foldl_cons, ih fun m hm => removeTree_ne_directory hl (hrest m hm),
      node?_removeTree hl]
    by_cases hx : x = l
    · rw [if_pos hx, if_pos (List.mem_cons.2 (Or.inl hx)), ite_self]
    · rw [if_neg hx]
      simp only [List.mem_cons, hx, false_or]

/-- What a removal of several locations touches and removes are these locations. -/
theorem frame_foldl_removeTree {locations : List Location}
    (h : ∀ l ∈ locations, d.node? l ≠ some .directory) :
    Frame (· ∈ locations) (· ∈ locations) d (locations.foldl removeTree d) := by
  induction locations generalizing d with
  | nil => exact Frame.refl _ _ d
  | cons l rest ih =>
    obtain ⟨hl, hrest⟩ := List.forall_mem_cons.1 h
    have hothers := ih fun m hm => removeTree_ne_directory hl (hrest m hm)
    have hfirst : ∀ m, m = l → m ∈ l :: rest := fun m hm => List.mem_cons.2 (Or.inl hm)
    have hlater : ∀ m ∈ rest, m ∈ l :: rest := fun m => List.mem_cons_of_mem l
    exact ((frame_removeTree hl).mono hfirst hfirst).trans (hothers.mono hlater hlater)

/-! ## Making directories -/

theorem frame_makeDirectory (h : d.makeDirectory p = .ok d') :
    Frame (fun _ => False) (fun _ => False) d d' := by
  obtain ⟨⟨folder, last⟩, -, h⟩ := bind_eq_ok_iff.1 h
  cases last with
  | dots => cases h
  | name n slash =>
    dsimp only at h
    split at h
    · cases h
    rename_i hnone
    have hnone : d.node? (folder ++ [n]) = none := by simpa using hnone
    obtain ⟨-, hcurrent, hnode, hroot⟩ := putAt_eq_ok h
    have hold : ∀ {x v}, d.node? x = some v → d'.node? x = some v := by
      intro x v hx
      rw [hnode, if_neg, hx]
      rintro rfl
      rw [hnone] at hx
      cases hx
    refine ⟨hcurrent, fun {x} _ => ?_, hold, fun _ hx => ⟨_, hold hx⟩, hroot⟩
    by_cases hx : x = folder ++ [n]
    · rw [hx]
      exact Or.inr ⟨hnone, by rw [hnode, if_pos rfl]⟩
    · exact Or.inl (by rw [hnode, if_neg hx])

theorem frame_ensureDirectory (d : Disk) (p : Path) :
    Frame (fun _ => False) (fun _ => False) d (d.ensureDirectory p).1 := by
  unfold ensureDirectory
  split
  · rename_i h
    exact frame_makeDirectory h
  · split <;> exact Frame.refl _ _ d

theorem frame_makeUpTo (d : Disk) (p : Path) (above : Nat) :
    Frame (fun _ => False) (fun _ => False) d (d.makeUpTo p above).1 := by
  fun_induction makeUpTo d p above with
  | case1 p => exact Frame.refl _ _ d
  | case2 p _ above parent _ _ d' hmade ih =>
    rw [hmade] at ih
    exact ih.trans (frame_ensureDirectory d' p)
  | case3 p _ above parent _ _ d' e hmade ih =>
    rw [hmade] at ih
    exact ih
  | case4 => exact frame_ensureDirectory d _

theorem frame_makeDirectories (d : Disk) (p : Path) :
    Frame (fun _ => False) (fun _ => False) d (d.makeDirectories p).1 :=
  frame_makeUpTo d p _

/-! ## Files -/

/-- What a path leads to, once a file was put under its last name, is that file. -/
theorem read_of_holder? {folder : Location} {n : Text}
    (h : d.holder? p = .ok (folder, .name n false)) (hcurrent : d'.current = d.current)
    (hdirs : ∀ x, d.node? x = some .directory → d'.node? x = some .directory)
    (hnew : d'.node? (folder ++ [n]) = some (.file c)) : d'.read p = .ok c := by
  rw [read_eq_ok_iff]
  refine ⟨find?_of_holder? h hcurrent hdirs (by rw [hnew]; rfl), ?_⟩
  rw [place_congr hcurrent, (place_of_holder? h).1, hnew]

/-- A file that was written is read back, and nothing else is touched. -/
theorem writeFile_eq_ok (h : d.writeFile p c = .ok d') :
    d'.read p = .ok c ∧ Frame (· = d.place p) (fun _ => False) d d' := by
  obtain ⟨⟨folder, last⟩, hholder, h⟩ := bind_eq_ok_iff.1 h
  cases last with
  | dots => cases h
  | name n slash =>
    dsimp only at h
    split at h
    · cases h
    rename_i hslash
    obtain rfl : slash = false := by simpa using hslash
    obtain ⟨hnew, hframe⟩ := putAt_file h
    refine ⟨read_of_holder? hholder hframe.current (fun _ => hframe.directory) hnew, ?_⟩
    rwa [(place_of_holder? hholder).1]

theorem frame_removeFile (h : d.removeFile p = .ok d') :
    Frame (· = d.place p) (· = d.place p) d d' := by
  obtain ⟨l, hl, h⟩ := bind_eq_ok_iff.1 h
  obtain rfl := find?_eq_ok hl
  split at h
  · rename_i hfile
    obtain rfl := Except.ok.inj h
    exact frame_removeTree (by rw [hfile]; exact nofun)
  · cases h

/-- A file that was renamed is read under its new name. -/
theorem rename_eq_ok (h : d.rename p q = .ok d') :
    ∃ c, d.read p = .ok c ∧ d'.read q = .ok c ∧
      Frame (fun l => l = d.place p ∨ l = d.place q) (· = d.place p) d d' := by
  obtain ⟨l, hl, h⟩ := bind_eq_ok_iff.1 h
  obtain rfl := find?_eq_ok hl
  obtain ⟨⟨folder, last⟩, hholder, h⟩ := bind_eq_ok_iff.1 h
  split at h
  · cases h
  · rename_i c folder' n slash hfile heq
    cases heq
    refine ⟨c, read_eq_ok_iff.2 ⟨hl, hfile⟩, ?_⟩
    split at h
    · cases h
    rename_i hslash
    obtain rfl : slash = false := by simpa using hslash
    split at h
    · -- The file has that name already.
      rename_i hsame
      obtain rfl := Except.ok.inj h
      exact ⟨read_of_holder? hholder rfl (fun _ => id) (by rw [hsame, hfile]), Frame.refl _ _ d⟩
    · have hgone := frame_removeTree (d := d) (l := d.place p) (by rw [hfile]; exact nofun)
      obtain ⟨hnew, hput⟩ := putAt_file h
      rw [← (place_of_holder? hholder).1] at hput
      have hframe : Frame (fun l => l = d.place p ∨ l = d.place q) (· = d.place p) d d' :=
        (hgone.mono (fun _ => Or.inl) fun _ => id).trans
          (hput.mono (fun _ => Or.inr) fun _ => False.elim)
      exact ⟨read_of_holder? hholder hframe.current (fun _ => hframe.directory) hnew, hframe⟩
  · cases h

end Disk

/-! ## Writers -/

namespace Writer

variable {d d' : Disk} {w : Writer}

/-- What a step of a writer does not change. -/
theorem step_same (d : Disk) (w : Writer) : (w.step d).2.target = w.target ∧
    (w.step d).2.temporary = w.temporary ∧ (w.step d).2.contents = w.contents := by
  unfold step
  split
  · split
    · exact ⟨rfl, rfl, rfl⟩
    · split <;> exact ⟨rfl, rfl, rfl⟩
  · split <;> exact ⟨rfl, rfl, rfl⟩
  · split <;> exact ⟨rfl, rfl, rfl⟩
  · split <;> exact ⟨rfl, rfl, rfl⟩
  · exact ⟨rfl, rfl, rfl⟩

theorem run_same (d : Disk) (w : Writer) (n : Nat) : (w.run d n).2.target = w.target ∧
    (w.run d n).2.temporary = w.temporary ∧ (w.run d n).2.contents = w.contents := by
  induction n generalizing d w with
  | zero => exact ⟨rfl, rfl, rfl⟩
  | succ n ih =>
    obtain ⟨htarget, htemporary, hcontents⟩ := step_same d w
    have hrest := ih (w.step d).1 (w.step d).2
    rwa [htarget, htemporary, hcontents] at hrest

/-- A step touches the temporary file; it touches the target only when it is the one
that gives the temporary file the target's name. -/
theorem frame_step (d : Disk) (w : Writer) :
    Disk.Frame
      (fun l => l = d.place w.temporary ∨
        l = d.place w.target ∧ (w.step d).2.result? = some (.ok ()))
      (· = d.place w.temporary) d (w.step d).1 := by
  unfold step
  split
  · split
    · exact Disk.Frame.refl _ _ d
    · rename_i folder _
      have hframe := Disk.frame_makeDirectories d folder
      split <;> rename_i d' _ hmade <;> rw [hmade] at hframe <;>
        exact hframe.mono (fun _ h => h.elim) fun _ h => h.elim
  · split
    · rename_i d' hwritten
      exact (Disk.writeFile_eq_ok hwritten).2.mono (fun _ => Or.inl) fun _ h => h.elim
    · exact Disk.Frame.refl _ _ d
  · split
    · rename_i d' hrenamed
      obtain ⟨c, -, -, hframe⟩ := Disk.rename_eq_ok hrenamed
      exact hframe.mono (fun _ h => h.imp_right fun h => ⟨h, rfl⟩) fun _ => id
    · exact Disk.Frame.refl _ _ d
  · split
    · rename_i d' hremoved
      exact (Disk.frame_removeFile hremoved).mono (fun _ => Or.inl) fun _ => id
    · exact Disk.Frame.refl _ _ d
  · exact Disk.Frame.refl _ _ d

/-- A writer that is done with a result stays so. -/
theorem result?_run {result : Except SystemError Unit} (h : w.result? = some result) (d : Disk)
    (n : Nat) : (w.run d n).2.result? = some result := by
  induction n generalizing d w with
  | zero => exact h
  | succ n ih =>
    refine ih ?_ (w.step d).1
    obtain ⟨target, temporary, contents, phase⟩ := w
    cases phase with
    | done r => exact h
    | _ => cases h

theorem frame_run (d : Disk) (w : Writer) (n : Nat) :
    Disk.Frame
      (fun l => l = d.place w.temporary ∨
        l = d.place w.target ∧ (w.run d n).2.result? = some (.ok ()))
      (· = d.place w.temporary) d (w.run d n).1 := by
  induction n generalizing d w with
  | zero => exact Disk.Frame.refl _ _ d
  | succ n ih =>
    have hstep := frame_step d w
    have hrest := ih (w.step d).1 (w.step d).2
    obtain ⟨htarget, htemporary, -⟩ := step_same d w
    rw [htarget, htemporary, Disk.place_congr hstep.current, Disk.place_congr hstep.current]
      at hrest
    refine (hstep.mono (fun l => ?_) fun _ => id).trans hrest
    exact Or.imp_right fun h => ⟨h.1, result?_run h.2 (w.step d).1 n⟩

/-- What is known about the files of a writer between two of its steps. -/
def Ready (d : Disk) (w : Writer) : Prop :=
  match w.phase with
  | .rename => d.read w.temporary = .ok w.contents
  | .done (.ok ()) => d.read w.target = .ok w.contents
  | _ => True

theorem Ready.step (h : w.Ready d) : (w.step d).2.Ready (w.step d).1 := by
  obtain ⟨target, temporary, contents, phase⟩ := w
  cases phase with
  | makeFolders =>
    simp only [Writer.step]
    split
    · trivial
    · split <;> trivial
  | writeTemporary =>
    simp only [Writer.step]
    split
    · rename_i d' hwritten
      exact (Disk.writeFile_eq_ok hwritten).1
    · trivial
  | rename =>
    simp only [Writer.step]
    split
    · rename_i d' hrenamed
      obtain ⟨c, hsource, htarget, -⟩ := Disk.rename_eq_ok hrenamed
      have hc : c = contents := Except.ok.inj (hsource.symm.trans h)
      rw [hc] at htarget
      exact htarget
    · trivial
  | discard e =>
    simp only [Writer.step]
    split <;> trivial
  | done result => exact h

theorem Ready.run (h : w.Ready d) (n : Nat) : (w.run d n).2.Ready (w.run d n).1 := by
  induction n generalizing d w with
  | zero => exact h
  | succ n ih => exact ih h.step

/-- The target of a writer that is done well holds the contents. -/
theorem Ready.read (h : w.Ready d) (hresult : w.result? = some (.ok ())) :
    d.read w.target = .ok w.contents := by
  obtain ⟨target, temporary, contents, phase⟩ := w
  cases phase with
  | done result =>
    obtain rfl : result = .ok () := Option.some.inj hresult
    exact h
  | _ => cases hresult

end Writer

namespace Disk

variable {d d' : Disk} {target : Path} {tag : Text} {c : ByteArray}
  {result : Except SystemError Unit}

/-- The replacement of a file is a run of a writer to its end. -/
theorem run_of_replaceFile (h : d.replaceFile target tag c = (d', result)) :
    let run := (Writer.start target tag c).run d (Writer.start target tag c).stepsLeft
    run.1 = d' ∧ run.2.result? = some result := by
  obtain ⟨hd, hresult⟩ := Prod.mk.inj h
  refine ⟨hd, ?_⟩
  obtain ⟨r, hr⟩ := Option.isSome_iff_exists.1 (Writer.isSome_result?_run
    (d := d) (w := Writer.start target tag c) (Nat.le_refl _))
  rw [hr] at hresult ⊢
  exact congrArg some hresult

/-- A file is touched by its replacement only if that is successful. -/
theorem frame_replaceFile (h : d.replaceFile target tag c = (d', result)) :
    Frame
      (fun l => l = d.place (Writer.temporaryFor target tag) ∨
        l = d.place target ∧ result = .ok ())
      (· = d.place (Writer.temporaryFor target tag)) d d' := by
  obtain ⟨rfl, hresult⟩ := run_of_replaceFile h
  refine (Writer.frame_run d (Writer.start target tag c) _).mono (fun l => ?_) fun _ => id
  rw [hresult]
  exact Or.imp_right fun h => ⟨h.1, Option.some.inj h.2⟩

/-- A file that was replaced holds what it was to hold. -/
theorem read_replaceFile (h : d.replaceFile target tag c = (d', .ok ())) :
    d'.read target = .ok c := by
  obtain ⟨rfl, hresult⟩ := run_of_replaceFile h
  have hready : (Writer.start target tag c).Ready d := trivial
  have hread := (hready.run (Writer.start target tag c).stepsLeft).read hresult
  obtain ⟨htarget, -, hcontents⟩ :=
    Writer.run_same d (Writer.start target tag c) (Writer.start target tag c).stepsLeft
  rwa [htarget, hcontents] at hread

/-- The disk that holds files with the given paths and contents. -/
def ofFiles (files : List (String × String)) : Disk :=
  files.foldl (fun d file =>
    (d.replaceFile (.ofString file.1) [] (Text.bytes file.2.toList)).1) .empty

end Disk

end Folio
