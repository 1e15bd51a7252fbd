import Folio.Proofs.Disk.Folders

/-!
# What replacing a file does exactly

A file is replaced by making the directories above it (`Disk.makeFolders`) and putting the
contents in its place by way of a temporary file (`Disk.putInPlace`), unless the directories
cannot be made (`Disk.replaceFile_of_error`). `Disk.replaced_replaceFile` says what the disk
is like afterwards : the target holds the contents, or else no file but the temporary one was
touched, and in either case there are no other new nodes than directories above the target.
-/

namespace Folio

namespace Disk

variable {d d' : Disk} {p q target temporary : Path} {tag : Text} {c : ByteArray}
  {result : Except SystemError Unit}

/-! ## Single changes -/

theorem writeFile_eq_ok_node? (h : d.writeFile p c = .ok d') :
    d.node? (d.place p) ≠ some .directory ∧ d'.current = d.current ∧
      ∀ x, d'.node? x = if x = d.place p then some (.file c) else d.node? x := by
  obtain ⟨⟨folder, last⟩, hholder, h⟩ := bind_eq_ok_iff.1 h
  cases last with
  | dots => cases h
  | name n slash =>
    dsimp only at h
    split at h
    · cases h
    · obtain ⟨hn, hcurrent, hnode, -⟩ := putAt_eq_ok h
      rw [(place_of_holder? hholder).1]
      exact ⟨hn, hcurrent, hnode⟩

theorem removeFile_of_read (h : d.read p = .ok c) :
    ∃ d', d.removeFile p = .ok d' ∧ d'.current = d.current ∧
      ∀ x, d'.node? x = if x = d.place p then none else d.node? x := by
  obtain ⟨hfind, hnode⟩ := read_eq_ok_iff.1 h
  refine ⟨d.removeTree (d.place p), ?_, rfl, node?_removeTree (by rw [hnode]; exact nofun)⟩
  refine bind_eq_ok_iff.2 ⟨d.place p, hfind, ?_⟩
  rw [hnode]
  rfl

/-- Under its new name, which was not that of a directory, a file holds what it held, and its
old name is free, unless both are the same. -/
theorem rename_eq_ok_node? (h : d.rename p q = .ok d') : ∃ c, d.read p = .ok c ∧
    d.node? (d.place q) ≠ some .directory ∧
    d'.current = d.current ∧ ∀ x, d'.node? x = if x = d.place q then some (.file c)
      else if x = d.place p then none else d.node? x := by
  obtain ⟨l, hl, h⟩ := bind_eq_ok_iff.1 h
  obtain rfl := find?_eq_ok hl
  obtain ⟨⟨folder, last⟩, hholder, h⟩ := bind_eq_ok_iff.1 h
  split at h
  · cases h
  · rename_i c folder' n slash hfile heq
    cases heq
    refine ⟨c, read_eq_ok_iff.2 ⟨hl, hfile⟩, ?_⟩
    split at h
    · cases h
    rw [(place_of_holder? hholder).1]
    split at h
    · rename_i hsame
      obtain rfl := Except.ok.inj h
      refine ⟨by rw [hsame, hfile]; exact nofun, rfl, fun x => ?_⟩
      rw [hsame]
      split
      · rename_i hx
        rw [hx, hfile]
      · rfl
    · rename_i hother
      have herased := node?_removeTree (d := d) (l := d.place p) (by rw [hfile]; exact nofun)
      obtain ⟨hn, hcurrent, hnode, -⟩ := putAt_eq_ok h
      rw [eraseFile, herased, if_neg hother] at hn
      refine ⟨hn, hcurrent, fun x => ?_⟩
      rw [hnode, eraseFile, herased]
  · cases h

/-! ## Replacing -/

/-- Makes the directories above a file. -/
def makeFolders (d : Disk) (target : Path) : Disk × Except SystemError Unit :=
  match target.parent? with
  | none => (d, .ok ())
  | some folder => d.makeDirectories folder

/-- Puts contents in place of a file by way of a temporary file, which is removed if it
cannot have the name of the file. -/
def putInPlace (d : Disk) (temporary target : Path) (c : ByteArray) :
    Disk × Except SystemError Unit :=
  match d.writeFile temporary c with
  | .error e => (d, .error e)
  | .ok d =>
    match d.rename temporary target with
    | .ok d => (d, .ok ())
    | .error e => ((d.removeFile temporary).toOption.getD d, .error e)

/-- A writer that has its directories puts the contents in place. -/
theorem finish_writeTemporary (d : Disk) (target temporary : Path) (c : ByteArray) :
    (⟨target, temporary, c, .writeTemporary⟩ : Writer).finish d =
      d.putInPlace temporary target c := by
  unfold putInPlace
  simp only [Writer.finish, Writer.stepsLeft, Writer.run, Writer.step]
  cases d.writeFile temporary c with
  | error e => rfl
  | ok d' =>
    dsimp only [Writer.goTo]
    cases d'.rename temporary target with
    | ok d'' => rfl
    | error e =>
      dsimp only
      cases d'.removeFile temporary <;> rfl

/-- The first step of a writer makes the directories above its target. -/
theorem step_start_of_ok (h : (d.makeFolders target).2 = .ok ()) (tag : Text) (c : ByteArray) :
    (Writer.start target tag c).step d = ((d.makeFolders target).1,
      (Writer.start target tag c).goTo .writeTemporary) := by
  have hphase : (Writer.start target tag c).phase = .makeFolders := rfl
  have htarget : (Writer.start target tag c).target = target := rfl
  unfold makeFolders at h ⊢
  rw [Writer.step, hphase, htarget]
  cases hq : target.parent? with
  | none => rfl
  | some q =>
    rw [hq] at h
    dsimp only at h ⊢
    cases hmade : d.makeDirectories q with
    | mk made result =>
      rw [hmade] at h
      obtain rfl : result = .ok () := h
      rfl

theorem step_start_of_error {e : SystemError} (h : (d.makeFolders target).2 = .error e)
    (tag : Text) (c : ByteArray) : (Writer.start target tag c).step d =
      ((d.makeFolders target).1, (Writer.start target tag c).goTo (.done (.error e))) := by
  have hphase : (Writer.start target tag c).phase = .makeFolders := rfl
  have htarget : (Writer.start target tag c).target = target := rfl
  unfold makeFolders at h ⊢
  rw [Writer.step, hphase, htarget]
  cases hq : target.parent? with
  | none =>
    rw [hq] at h
    cases h
  | some q =>
    rw [hq] at h
    dsimp only at h ⊢
    cases hmade : d.makeDirectories q with
    | mk made result =>
      rw [hmade] at h
      obtain rfl : result = .error e := h
      rfl

/-- A file is replaced by its writer, whose first step makes the directories. -/
theorem replaceFile_eq_run (d : Disk) (target : Path) (tag : Text) (c : ByteArray) :
    d.replaceFile target tag c =
      let first := (Writer.start target tag c).step d
      let run := first.2.run first.1 3
      (run.1, run.2.result?.getD (.ok ())) :=
  rfl

theorem replaceFile_of_ok (h : (d.makeFolders target).2 = .ok ()) : d.replaceFile target tag c =
    (d.makeFolders target).1.putInPlace (Writer.temporaryFor target tag) target c := by
  rw [replaceFile_eq_run, step_start_of_ok h]
  exact finish_writeTemporary _ target _ c

theorem replaceFile_of_error {e : SystemError} (h : (d.makeFolders target).2 = .error e) :
    d.replaceFile target tag c = ((d.makeFolders target).1, .error e) := by
  rw [replaceFile_eq_run, step_start_of_error h]
  rfl

theorem grown_makeFolders (d : Disk) (target : Path) :
    Grown (fun l => ∃ q, q.Above target ∧ l = d.place q) d (d.makeFolders target).1 := by
  unfold makeFolders
  split
  · exact Grown.refl _ d
  · rename_i folder hfolder
    refine (grown_makeDirectories d folder).mono ?_
    rintro l ⟨q, rfl | hq, rfl⟩
    · exact ⟨q, .parent hfolder, rfl⟩
    · exact ⟨q, hq.of_parent? hfolder, rfl⟩

/-- What putting contents in place comes to : the target, no directory, holds them and the
temporary file is gone, or nothing has changed but that a temporary file, if there was one,
may be gone. -/
theorem node?_putInPlace (h : d.putInPlace temporary target c = (d', result)) :
    d'.current = d.current ∧
    (result = .ok () → d.node? (d.place target) ≠ some .directory ∧
      ∀ x, d'.node? x = if x = d.place target then some (.file c)
        else if x = d.place temporary then none else d.node? x) ∧
    (∀ e, result = .error e → SameTree d d' ∨ d.node? (d.place temporary) ≠ some .directory ∧
      ∀ x, d'.node? x = if x = d.place temporary then none else d.node? x) := by
  unfold putInPlace at h
  cases hwrite : d.writeFile temporary c with
  | error e =>
    rw [hwrite] at h
    cases h
    exact ⟨rfl, nofun, fun _ _ => Or.inl (SameTree.refl d)⟩
  | ok d₁ =>
    obtain ⟨hnot, hcurrent, hnode⟩ := writeFile_eq_ok_node? hwrite
    have hread := (writeFile_eq_ok hwrite).1
    rw [hwrite] at h
    dsimp only at h
    cases hrename : d₁.rename temporary target with
    | ok d₂ =>
      rw [hrename] at h
      cases h
      obtain ⟨c', hread', htarget, hcurrent', hnode'⟩ := rename_eq_ok_node? hrename
      obtain rfl : c' = c := Except.ok.inj (hread'.symm.trans hread)
      rw [place_congr hcurrent, hnode] at htarget
      refine ⟨hcurrent'.trans hcurrent, fun _ => ⟨?_, fun x => ?_⟩, nofun⟩
      · split at htarget
        · rename_i hsame
          rwa [hsame]
        · exact htarget
      rw [hnode', place_congr hcurrent, place_congr hcurrent, hnode]
      split
      · rfl
      · split
        · rfl
        · rfl
    | error e =>
      rw [hrename] at h
      obtain ⟨d₂, hremove, hcurrent', hnode'⟩ := removeFile_of_read hread
      rw [hremove] at h
      cases h
      refine ⟨hcurrent'.trans hcurrent, nofun, fun _ _ => Or.inr ⟨hnot, fun x => ?_⟩⟩
      show d₂.node? x = _
      rw [hnode', place_congr hcurrent, hnode]
      split <;> rfl

/-- What putting contents in place comes to where nothing stands at the temporary file : the
file holds them, or nothing has changed at all. -/
structure Placed (l : Location) (c : ByteArray) (d : Disk)
    (placed : Disk × Except SystemError Unit) : Prop where
  current : placed.1.current = d.current
  free : placed.2 = .ok () → d.node? l ≠ some .directory
  node : placed.2 = .ok () → ∀ x, placed.1.node? x = if x = l then some (.file c) else d.node? x
  failed : ∀ e, placed.2 = .error e → SameTree d placed.1

theorem placed_putInPlace (hvacant : d.node? (d.place temporary) = none) :
    Placed (d.place target) c d (d.putInPlace temporary target c) := by
  have hgone : ∀ x, (if x = d.place temporary then none else d.node? x) = d.node? x := by
    intro x
    split
    · rename_i hx
      rw [hx, hvacant]
    · rfl
  cases hput : d.putInPlace temporary target c with
  | mk d' result =>
    obtain ⟨hcurrent, hok, herror⟩ := node?_putInPlace hput
    simp only [hgone] at hok herror
    exact ⟨hcurrent, fun h => (hok h).1, fun h => (hok h).2, fun e he =>
      (herror e he).elim id fun ⟨_, hnode⟩ => ⟨hcurrent, hnode⟩⟩

/-- What replacing a file comes to, told from the disk once the directories above it are
made. -/
theorem node?_replaceFile (h : d.replaceFile target tag c = (d', result)) :
    let d₁ := (d.makeFolders target).1
    let temporary := Writer.temporaryFor target tag
    d'.current = d.current ∧
    (result = .ok () → d₁.node? (d.place target) ≠ some .directory ∧
      ∀ x, d'.node? x = if x = d.place target then some (.file c)
        else if x = d.place temporary then none else d₁.node? x) ∧
    (∀ e, result = .error e → SameTree d₁ d' ∨ d₁.node? (d.place temporary) ≠ some .directory ∧
      ∀ x, d'.node? x = if x = d.place temporary then none else d₁.node? x) := by
  intro d₁ temporary
  have hcurrent : d₁.current = d.current := (grown_makeFolders d target).current
  cases hmade : (d.makeFolders target).2 with
  | error e =>
    rw [replaceFile_of_error hmade] at h
    obtain ⟨rfl, rfl⟩ := Prod.mk.inj h
    exact ⟨hcurrent, nofun, fun _ _ => Or.inl (SameTree.refl _)⟩
  | ok _ =>
    rw [replaceFile_of_ok hmade] at h
    obtain ⟨hcurrent', hok, herror⟩ := node?_putInPlace h
    rw [place_congr hcurrent, place_congr hcurrent] at hok
    rw [place_congr hcurrent] at herror
    exact ⟨hcurrent'.trans hcurrent, hok, herror⟩

/-- No directories are made above a path that reaches a directory. -/
theorem makeFolders_of_reach {l : Location} (h : d.reach (d.origin target) target.steps = .ok l) :
    (d.makeFolders target).1 = d := by
  unfold makeFolders
  split
  · rfl
  rename_i q hq
  obtain ⟨m, hreach⟩ : ∃ m, d.reach (d.origin q) q.steps = .ok m := by
    obtain ⟨last, hlast⟩ := List.dropLast_prefix target.steps
    rw [← hlast, reach_append] at h
    obtain ⟨m, hm, -⟩ := bind_eq_ok_iff.1 h
    exact ⟨m, by rw [origin, Path.isAbsolute_of_parent? hq, Path.steps_of_parent? hq]; exact hm⟩
  show (d.makeUpTo q q.components.length).1 = d
  by_cases htext : q.text = []
  · rw [makeUpTo_of_text_eq_nil htext]
  cases hstart : d.start? q with
  | ok start =>
    rw [makeUpTo_of_isDirectory (isDirectory_of_reach (start?_eq_ok_iff.1 hstart).1 hreach)]
  | error e => rw [makeUpTo_of_start? htext hstart]

/-- A file that cannot be replaced since a directory is there leaves the tree alone. -/
theorem sameTree_replaceFile_of_reach {l : Location} {e : SystemError}
    (h : d.reach (d.origin target) target.steps = .ok l)
    (hvacant : d.node? (d.place (Writer.temporaryFor target tag)) = none)
    (hfailed : (d.replaceFile target tag c).2 = .error e) :
    SameTree d (d.replaceFile target tag c).1 := by
  have hfolders := makeFolders_of_reach h
  cases hmade : (d.makeFolders target).2 with
  | error e' =>
    rw [replaceFile_of_error hmade, hfolders]
    exact SameTree.refl d
  | ok _ =>
    rw [replaceFile_of_ok hmade, hfolders] at hfailed ⊢
    exact (placed_putInPlace hvacant).failed e hfailed

/-- The name of the temporary file beside a file with some name. -/
def temporaryName (n tag : Text) : Text :=
  '.' :: n ++ ".tmp-".toList ++ tag

theorem length_temporaryName (n tag : Text) :
    (temporaryName n tag).length = n.length + tag.length + 6 := by
  have hmiddle : ".tmp-".toList.length = 5 := rfl
  rw [temporaryName, List.length_append, List.length_append, List.length_cons, hmiddle]
  omega

theorem isName_temporaryName {n tag : Text} (hn : '/' ∉ n) (htag : '/' ∉ tag) :
    (temporaryName n tag).IsName := by
  have hlength := length_temporaryName n tag
  refine ⟨fun hvoid => ?_, fun hup => ?_, ?_⟩
  · rcases (by simpa [Path.isVoid] using hvoid : temporaryName n tag = [] ∨ _) with h | h <;>
      rw [h] at hlength <;> cases hlength
  · rw [hup] at hlength
    cases hlength
  · simp [temporaryName, hn, htag]

theorem temporaryName_ne (n tag : Text) : temporaryName n tag ≠ n := by
  intro h
  have hlength := length_temporaryName n tag
  rw [h] at hlength
  omega

/-- A file with a name has its temporary file beside it. -/
theorem temporaryFor_eq {n : Text} (hn : target.fileName? = some n) (hq : target.parent? = some q)
    (tag : Text) : Writer.temporaryFor target tag = q.join ⟨temporaryName n tag⟩ := by
  unfold Writer.temporaryFor Path.withFileName
  rw [hn, hq]
  rfl

/-- A temporary file stands beside its target, or in it where that has no name. -/
theorem place_temporaryFor_cases (d : Disk) (target : Path) {tag : Text} (htag : '/' ∉ tag) :
    (∃ n, d.place (Writer.temporaryFor target tag) = d.place target ++ [temporaryName n tag]) ∨
      ∃ folder n, d.place target = folder ++ [n] ∧
        d.place (Writer.temporaryFor target tag) = folder ++ [temporaryName n tag] := by
  cases hname : target.fileName? with
  | none =>
    refine Or.inl ⟨"output".toList, ?_⟩
    have htemporary : Writer.temporaryFor target tag =
        target.join ⟨temporaryName "output".toList tag⟩ := by
      unfold Writer.temporaryFor Path.withFileName
      rw [hname]
      rfl
    rw [htemporary, place_join_name (isName_temporaryName (by decide) htag)]
  | some n =>
    obtain ⟨before, hsteps, hup⟩ := Path.fileName?_eq_some_iff.1 hname
    obtain ⟨q, hq⟩ := Path.exists_parent?_of_steps (p := target) (by rw [hsteps]; simp)
    have hmem : n ∈ target.steps := by
      rw [hsteps]
      exact List.mem_append_right _ List.mem_cons_self
    refine Or.inr ⟨d.place q, n, ?_, ?_⟩
    · rw [place_eq_foldl_steps, place_eq_foldl_steps, Path.steps_of_parent? hq, hsteps, origin,
        origin, Path.isAbsolute_of_parent? hq, List.dropLast_concat, List.foldl_append]
      exact Location.advance_of_isName
        ⟨Path.not_isVoid_of_mem_steps hmem, hup, Path.slash_notMem_of_mem_steps hmem⟩ _
    · rw [temporaryFor_eq hname hq, place_join_name
        (isName_temporaryName (Path.slash_notMem_of_mem_steps hmem) htag)]

/-- No file has its own temporary file at its place. -/
theorem place_temporaryFor_ne (d : Disk) (target : Path) {tag : Text} (htag : '/' ∉ tag) :
    d.place (Writer.temporaryFor target tag) ≠ d.place target := by
  rcases place_temporaryFor_cases d target htag with ⟨n, hplace⟩ | ⟨folder, n, htarget, hplace⟩
  · rw [hplace]
    simp
  · rw [hplace, htarget]
    intro hsame
    exact temporaryName_ne n tag (List.head_eq_of_cons_eq (List.append_cancel_left hsame))

/-- The second disk is the first one after a file was replaced : its path reads back the
contents, and apart from new directories above it, as it is spelled, there is no other
change but that nothing stands at the temporary file any more. -/
structure Replaced (target temporary : Path) (c : ByteArray) (d d' : Disk) : Prop where
  current : d'.current = d.current
  read : d'.read target = .ok c
  others : ∀ l, l ≠ d.place target → l ≠ d.place temporary → d'.node? l = d.node? l ∨
    d.node? l = none ∧ d'.node? l = some .directory ∧ ∃ q, q.Above target ∧ l = d.place q
  gone : d.place temporary ≠ d.place target → d'.node? (d.place temporary) = none

/-- The second disk is the first one after a file could not be replaced : apart from new
directories above it there is no change but that a temporary file may be gone, and none
is there that was not there before. -/
structure Unreplaced (target temporary : Path) (d d' : Disk) : Prop where
  current : d'.current = d.current
  others : ∀ l, l ≠ d.place temporary → d'.node? l = d.node? l ∨
    d.node? l = none ∧ d'.node? l = some .directory ∧ ∃ q, q.Above target ∧ l = d.place q
  gone : ∀ c, d'.node? (d.place temporary) = some (.file c) →
    d.node? (d.place temporary) = some (.file c)

theorem replaced_replaceFile (h : d.replaceFile target tag c = (d', .ok ())) :
    Replaced target (Writer.temporaryFor target tag) c d d' := by
  obtain ⟨hcurrent, hok, -⟩ := node?_replaceFile h
  obtain ⟨-, hnode⟩ := hok rfl
  refine ⟨hcurrent, read_replaceFile h, fun l htarget htemporary => ?_, fun hne => ?_⟩
  · rw [hnode, if_neg htarget, if_neg htemporary]
    exact (grown_makeFolders d target).node l
  · rw [hnode, if_neg hne, if_pos rfl]

theorem unreplaced_replaceFile {e : SystemError}
    (h : d.replaceFile target tag c = (d', .error e)) :
    Unreplaced target (Writer.temporaryFor target tag) d d' := by
  obtain ⟨hcurrent, -, herror⟩ := node?_replaceFile h
  have hgrown := grown_makeFolders d target
  rcases herror e rfl with hsame | ⟨-, hnode⟩
  · refine ⟨hcurrent, fun l _ => ?_, fun c hc => ?_⟩
    · rw [hsame.node]
      exact hgrown.node l
    · rwa [hsame.node, hgrown.file_iff] at hc
  · refine ⟨hcurrent, fun l hl => ?_, fun c hc => ?_⟩
    · rw [hnode, if_neg hl]
      exact hgrown.node l
    · rw [hnode, if_pos rfl] at hc
      cases hc

/-! ## The same result on another disk -/

/-- Whether and why a computation fails. -/
def verdict {α : Type} (x : Except SystemError α) : Except SystemError Unit :=
  x.map fun _ => ()

theorem putAt_congr {l : Location} {n : Text} (v : DiskNode) (hl : d'.node? l = d.node? l)
    (hn : d'.node? (l ++ [n]) = d.node? (l ++ [n])) :
    verdict (d'.putAt l n v) = verdict (d.putAt l n v) := by
  unfold putAt
  by_cases hdir : d.node? l = some .directory
  · rw [dif_pos hdir, dif_pos (hl.trans hdir)]
    by_cases hfree : d.node? (l ++ [n]) = some .directory
    · rw [dif_neg (not_not.2 hfree), dif_neg (not_not.2 (hn.trans hfree))]
    · rw [dif_pos hfree, dif_pos (by rwa [hn])]
      rfl
  · rw [dif_neg hdir, dif_neg (by rwa [hl])]

/-- The directory that a path is looked up in is on its route. -/
theorem folder_mem_route {folder : Location} {n : Text} {slash : Bool}
    (h : d.holder? p = .ok (folder, .name n slash)) : folder ∈ d.route p := by
  obtain ⟨start, before, blanks, hstart, -, -, hfolder, -⟩ := exists_parts_of_holder? h
  rw [foldlM_step_eq_ok hfolder]
  exact mem_route_of_start? hstart (List.prefix_append before _)

section Congr

variable (hcurrent : d'.current = d.current) (hp : ∀ l ∈ d.route p, d'.node? l = d.node? l)
include hcurrent hp

theorem writeFile_congr (c : ByteArray) :
    verdict (d'.writeFile p c) = verdict (d.writeFile p c) := by
  unfold writeFile
  rw [holder?_congr hcurrent hp]
  cases hholder : d.holder? p with
  | error e => rfl
  | ok found =>
    obtain ⟨folder, last⟩ := found
    cases last with
    | dots => rfl
    | name n slash =>
      cases slash with
      | true => rfl
      | false =>
        refine putAt_congr _ (hp _ (folder_mem_route hholder)) ?_
        rw [← (place_of_holder? hholder).1]
        exact hp _ (place_mem_route d p)

theorem rename_congr (hq : ∀ l ∈ d.route q, d'.node? l = d.node? l) :
    verdict (d'.rename p q) = verdict (d.rename p q) := by
  unfold rename
  rw [find?_congr hcurrent hp]
  cases hfind : d.find? p with
  | error e => rfl
  | ok l =>
    obtain rfl := find?_eq_ok hfind
    have hnode : d'.node? (d.place p) = d.node? (d.place p) := hp _ (place_mem_route d p)
    rw [holder?_congr hcurrent hq]
    cases hholder : d.holder? q with
    | error e => rfl
    | ok found =>
      obtain ⟨folder, last⟩ := found
      dsimp only [bind, Except.bind]
      rw [hnode]
      cases hfile : d.node? (d.place p) with
      | none => rfl
      | some v =>
        cases v with
        | directory => rfl
        | file c =>
          cases last with
          | dots => rfl
          | name n slash =>
            cases slash with
            | true => rfl
            | false =>
              have herased : ∀ x ∈ d.route q,
                  (d'.eraseFile (d.place p)).node? x = (d.eraseFile (d.place p)).node? x := by
                intro x hx
                rw [eraseFile, eraseFile, node?_removeTree (by rw [hnode, hfile]; exact nofun),
                  node?_removeTree (by rw [hfile]; exact nofun), hq x hx]
              dsimp only
              rw [if_neg Bool.false_ne_true, if_neg Bool.false_ne_true]
              split
              · rfl
              · refine putAt_congr _ (herased _ (folder_mem_route hholder)) ?_
                rw [← (place_of_holder? hholder).1]
                exact herased _ (place_mem_route d q)

end Congr

theorem putInPlace_snd (d : Disk) (temporary target : Path) (c : ByteArray) :
    (d.putInPlace temporary target c).2 =
      d.writeFile temporary c >>= fun d => verdict (d.rename temporary target) := by
  unfold putInPlace
  cases d.writeFile temporary c with
  | error e => rfl
  | ok d₁ =>
    dsimp only [bind, Except.bind]
    cases d₁.rename temporary target <;> rfl

/-- Putting contents in place has the same result on every disk that has the same on the
routes of both paths. -/
theorem putInPlace_congr (hcurrent : d'.current = d.current)
    (htemporary : ∀ l ∈ d.route temporary, d'.node? l = d.node? l)
    (htarget : ∀ l ∈ d.route target, d'.node? l = d.node? l) (c : ByteArray) :
    (d'.putInPlace temporary target c).2 = (d.putInPlace temporary target c).2 := by
  have hwritten := writeFile_congr hcurrent htemporary c
  rw [putInPlace_snd, putInPlace_snd]
  cases hwrite : d.writeFile temporary c with
  | error e =>
    rw [hwrite] at hwritten
    cases hwrite' : d'.writeFile temporary c with
    | error e' =>
      rw [hwrite'] at hwritten
      exact hwritten
    | ok d₁' =>
      rw [hwrite'] at hwritten
      cases hwritten
  | ok d₁ =>
    rw [hwrite] at hwritten
    cases hwrite' : d'.writeFile temporary c with
    | error e' =>
      rw [hwrite'] at hwritten
      cases hwritten
    | ok d₁' =>
      obtain ⟨-, hcurrent₁, hnode₁⟩ := writeFile_eq_ok_node? hwrite
      obtain ⟨-, hcurrent₁', hnode₁'⟩ := writeFile_eq_ok_node? hwrite'
      -- What is written is the same, so that both disks still agree.
      have hsame : ∀ x, d'.node? x = d.node? x → d₁'.node? x = d₁.node? x := by
        intro x hx
        rw [hnode₁, hnode₁', place_congr hcurrent, hx]
      have hroute : ∀ p, d₁.route p = d.route p := fun p => by
        rw [route, route, origin_congr hcurrent₁]
      refine rename_congr (by rw [hcurrent₁', hcurrent, hcurrent₁]) (fun l hl => ?_) fun l hl => ?_
      · exact hsame l (htemporary l (by rwa [← hroute]))
      · exact hsame l (htarget l (by rwa [← hroute]))

end Disk

end Folio
