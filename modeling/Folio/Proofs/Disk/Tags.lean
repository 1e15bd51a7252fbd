import Folio.Proofs.Disk.Ahead

/-!
# The tag of a temporary file

A file is replaced by way of a temporary file beside it, whose name ends in a tag. Which
tag that is makes no difference, as long as nothing stands at the temporary file and all
tags are of one size : the file can be replaced with one tag exactly if it can be with
another one, for the same reason otherwise, and the tree is the same afterwards
(`Disk.replaceFile_of_tagsAlike`).

The temporary file decides no more than whether it can be written
(`Disk.holder?_join_alike`). Once it is there, what becomes of it is decided by the file
that is replaced (`Disk.putInPlace_snd_of_way`).
-/

namespace Folio

/-- Whether two texts are of one size, and both have a NUL character or neither has. -/
def Text.Alike (n m : Text) : Prop :=
  n.size = m.size ∧ ('\x00' ∈ n ↔ '\x00' ∈ m)

instance (n m : Text) : Decidable (n.Alike m) :=
  inferInstanceAs (Decidable (_ ∧ _))

theorem Text.Alike.append {n m : Text} (h : n.Alike m) (before : Text) :
    (before ++ n).Alike (before ++ m) := by
  refine ⟨?_, ?_⟩
  · rw [Text.size_append, Text.size_append, h.1]
  · rw [List.mem_append, List.mem_append, h.2]

namespace Disk

variable {d d' : Disk} {p q target : Path} {tag tag' : Text} {l : Location}
  {base names : List Text} {n m : Text} {c : ByteArray}

/-! ## Where a temporary file would be -/

/-- A path that is joined with a name ends in this name. -/
theorem exists_before_join (q : Path) : ∃ (text : Text) (before : List Text), ∀ n : Text,
    n.IsName → (q.join ⟨n⟩).text = text ++ n ∧
      (q.join ⟨n⟩).text.splitOn '/' = before ++ [n] := by
  by_cases hlast : q.text.getLast? = some '/'
  · obtain ⟨a, ha⟩ := List.getLast?_eq_some_iff.1 hlast
    refine ⟨q.text, a.splitOn '/', fun n hn => ?_⟩
    have hjoin : (q.join ⟨n⟩).text = q.text ++ n := by
      rw [Path.join, if_neg (Path.not_isAbsolute_of_name hn), if_pos (by simp [hlast])]
    refine ⟨hjoin, ?_⟩
    rw [hjoin, ha, List.append_assoc, List.singleton_append, List.splitOn_append_cons_self,
      List.splitOn_eq_singleton hn.2.2]
  · by_cases hq : q.text = []
    · refine ⟨[], [], fun n hn => ?_⟩
      have hjoin : (q.join ⟨n⟩).text = n := by
        rw [Path.join, if_neg (Path.not_isAbsolute_of_name hn), if_pos (by simp [hq]), hq]
        rfl
      rw [hjoin]
      exact ⟨rfl, List.splitOn_eq_singleton hn.2.2⟩
    · refine ⟨q.text ++ ['/'], q.text.splitOn '/', fun n hn => ?_⟩
      have hjoin : (q.join ⟨n⟩).text = q.text ++ '/' :: n := by
        rw [Path.join, if_neg (Path.not_isAbsolute_of_name hn), if_neg (by simp [hq, hlast])]
      refine ⟨?_, ?_⟩
      · rw [hjoin, List.append_assoc, List.singleton_append]
      · rw [hjoin, List.splitOn_append_cons_self, List.splitOn_eq_singleton hn.2.2]

/-- Nothing is empty that ends in a name. -/
theorem append_name_ne_nil (text : Text) (hn : n.IsName) : text ++ n ≠ [] :=
  List.append_ne_nil_of_right_ne_nil text fun hnil => hn.1 (by rw [hnil]; rfl)

theorem IsUsable.join_alike (husable : IsUsable (q.join ⟨n⟩)) (hn : n.IsName) (hm : m.IsName)
    (h : n.Alike m) : IsUsable (q.join ⟨m⟩) := by
  obtain ⟨text, before, hjoin⟩ := exists_before_join q
  obtain ⟨hsize, hnul⟩ := h.append text
  obtain ⟨hclean, -, hshort⟩ := husable
  rw [(hjoin n hn).1] at hclean hshort
  refine ⟨?_, ?_, ?_⟩ <;> rw [(hjoin m hm).1]
  · exact fun hmem => hclean (hnul.2 hmem)
  · exact append_name_ne_nil text hm
  · exact hsize ▸ hshort

/-- Names of one size are looked up in one directory, if their paths can be used. -/
theorem exists_holder?_join (d : Disk) (q : Path) (n : Text) :
    ∃ folder : Except SystemError Location, ∀ x : Text, x.IsName → x.size = n.size →
      IsUsable (q.join ⟨x⟩) →
        d.holder? (q.join ⟨x⟩) = folder.map fun l => (l, .name x false) := by
  obtain ⟨text, before, hjoin⟩ := exists_before_join q
  refine ⟨d.reach (d.origin q) before >>= fun l =>
    if nameLimit < n.size then .error .nameTooLong else .ok l, fun x hx hsize husable => ?_⟩
  rw [holder?_of_splitOn husable (hjoin x hx).2 hx.1 hx.2.1, origin,
    Path.isAbsolute_join_of_relative (Path.not_isAbsolute_of_name hx), hsize, ← origin]
  cases d.reach (d.origin q) before with
  | error e => rfl
  | ok l =>
    show (if nameLimit < n.size then _ else _) =
      Except.map _ (if nameLimit < n.size then _ else _)
    split <;> rfl

/-- Where a path cannot be used, none can that ends in a name alike, for the same reason. -/
theorem exists_start?_join (d : Disk) (hn : n.IsName) (husable : ¬IsUsable (q.join ⟨n⟩)) :
    ∃ e, ∀ x : Text, x.IsName → n.Alike x → d.start? (q.join ⟨x⟩) = .error e := by
  obtain ⟨text, before, hjoin⟩ := exists_before_join q
  have hlong : '\x00' ∉ text ++ n → pathLimit < (text ++ n).size := by
    refine fun hclean => Nat.lt_of_not_le fun hshort => husable ⟨?_, ?_, ?_⟩ <;>
      rw [(hjoin n hn).1]
    · exact hclean
    · exact append_name_ne_nil text hn
    · exact hshort
  refine ⟨if '\x00' ∈ text ++ n then .nulInName else .nameTooLong, fun x hx h => ?_⟩
  obtain ⟨hsize, hnul⟩ := h.append text
  have hempty : (text ++ x).isEmpty = false :=
    List.isEmpty_eq_false_iff.2 (append_name_ne_nil text hx)
  rw [start?, (hjoin x hx).1]
  by_cases hclean : '\x00' ∈ text ++ n
  · rw [if_pos (List.contains_iff_mem.2 (hnul.1 hclean)), if_pos hclean]
  · rw [if_neg fun hmem => hclean (hnul.2 (List.contains_iff_mem.1 hmem)), hempty,
      if_neg Bool.false_ne_true, ← hsize, if_pos (hlong hclean), if_neg hclean]

/-- Names that are alike are looked up in the same directory, or neither of them is, for the
same reason. -/
theorem holder?_join_alike (hn : n.IsName) (hm : m.IsName) (h : n.Alike m) (d : Disk)
    (q : Path) : ∃ folder : Except SystemError Location,
      d.holder? (q.join ⟨n⟩) = folder.map (fun l => (l, .name n false)) ∧
      d.holder? (q.join ⟨m⟩) = folder.map (fun l => (l, .name m false)) := by
  by_cases husable : IsUsable (q.join ⟨n⟩)
  · obtain ⟨folder, hfolder⟩ := exists_holder?_join d q n
    exact ⟨folder, hfolder n hn rfl husable,
      hfolder m hm h.1.symm (husable.join_alike hn hm h)⟩
  · obtain ⟨e, he⟩ := exists_start?_join d hn husable
    refine ⟨.error e, ?_, ?_⟩ <;> unfold holder?
    · rw [he n hn ⟨rfl, Iff.rfl⟩]
      rfl
    · rw [he m hm h]
      rfl

/-! ## Putting contents in place -/

/-- Whether and why the last part of a path could not become a file. -/
def admits (d : Disk) (p : Path) : Except SystemError Unit :=
  d.holder? p >>= fun found =>
    match found with
    | (_, .dots) => .error .busy
    | (folder, .name n slash) =>
      if slash then .error .notDirectory
      else if d.node? (folder ++ [n]) = some .directory then .error .isDirectory else .ok ()

theorem admits_congr (hcurrent : d'.current = d.current)
    (hp : ∀ l ∈ d.route p, d'.node? l = d.node? l) : d'.admits p = d.admits p := by
  unfold admits
  rw [holder?_congr hcurrent hp]
  cases hholder : d.holder? p with
  | error e => rfl
  | ok found =>
    obtain ⟨folder, last⟩ := found
    cases last with
    | dots => rfl
    | name n slash =>
      have hnode := hp _ (place_mem_route d p)
      rw [(place_of_holder? hholder).1] at hnode
      show (if slash then _ else if d'.node? (folder ++ [n]) = _ then _ else _) = _
      rw [hnode]
      rfl

/-- A file can have the place of another one exactly if that could become a file. -/
theorem verdict_rename (hread : d.read p = .ok c) (hne : d.place p ≠ d.place q) :
    verdict (d.rename p q) = d.admits q := by
  obtain ⟨hfind, hfile⟩ := read_eq_ok_iff.1 hread
  unfold rename admits
  rw [hfind]
  dsimp only [bind, Except.bind]
  cases hholder : d.holder? q with
  | error e => rfl
  | ok found =>
    obtain ⟨folder, last⟩ := found
    dsimp only
    rw [hfile]
    cases last with
    | dots => rfl
    | name n slash =>
      cases slash with
      | true => rfl
      | false =>
        obtain ⟨hplace, hfolder⟩ := place_of_holder? hholder
        rw [hplace] at hne
        have hnode := node?_removeTree (d := d) (l := d.place p) (by rw [hfile]; exact nofun)
        have hfolder' : (d.eraseFile (d.place p)).node? folder = some .directory := by
          rw [eraseFile, hnode, if_neg, hfolder]
          rintro rfl
          rw [hfolder] at hfile
          cases hfile
        have hlast : (d.eraseFile (d.place p)).node? (folder ++ [n]) = d.node? (folder ++ [n]) := by
          rw [eraseFile, hnode, if_neg (Ne.symm hne)]
        dsimp only
        rw [if_neg Bool.false_ne_true, if_neg (Ne.symm hne), if_neg Bool.false_ne_true, putAt,
          dif_pos hfolder']
        by_cases hdirectory : d.node? (folder ++ [n]) = some .directory
        · rw [dif_neg (not_not.2 (hlast.trans hdirectory)), if_pos hdirectory]
          rfl
        · rw [dif_pos (by rwa [hlast]), if_neg hdirectory]
          rfl

/-- A file is written where nothing stands exactly if a directory is there to hold it. -/
theorem verdict_writeFile {folder : Except SystemError Location}
    (hholder : d.holder? p = folder.map fun l => (l, .name n false))
    (hvacant : d.node? (d.place p) = none) :
    verdict (d.writeFile p c) = verdict folder := by
  unfold writeFile
  rw [hholder]
  cases folder with
  | error e => rfl
  | ok l =>
    obtain ⟨hplace, hl⟩ := place_of_holder? hholder
    have hfree : d.node? (l ++ [n]) ≠ some .directory := by
      rw [← hplace, hvacant]
      simp
    dsimp only [Except.map, bind, Except.bind]
    rw [if_neg Bool.false_ne_true, putAt, dif_pos hl, dif_pos hfree]
    rfl

/-- Contents are put in place, by way of a temporary file that is not on the way, if this
file can be written and the last part of the path could become a file. -/
theorem putInPlace_snd_of_way {temporary : Path} (hvacant : d.node? (d.place temporary) = none)
    (hway : d.place temporary ∉ d.route target) {folder : Except SystemError Location}
    (hholder : d.holder? temporary = folder.map fun l => (l, .name n false)) (c : ByteArray) :
    (d.putInPlace temporary target c).2 = verdict folder >>= fun _ => d.admits target := by
  rw [putInPlace_snd, ← verdict_writeFile (c := c) hholder hvacant]
  cases hwrite : d.writeFile temporary c with
  | error e => rfl
  | ok d₁ =>
    obtain ⟨-, hcurrent, hnode⟩ := writeFile_eq_ok_node? hwrite
    show verdict (d₁.rename temporary target) = d.admits target
    rw [verdict_rename (writeFile_eq_ok hwrite).1 fun hsame => hway ?_]
    · refine admits_congr hcurrent fun x hx => ?_
      rw [hnode, if_neg]
      rintro rfl
      exact hway hx
    · rw [place_congr hcurrent, place_congr hcurrent] at hsame
      exact hsame ▸ place_mem_route d target

/-- The temporary files for one file have names in one directory. -/
theorem exists_temporaryFor_eq_join (target : Path) : ∃ (q : Path) (n : Text), '/' ∉ n ∧
    ∀ tag, Writer.temporaryFor target tag = q.join ⟨temporaryName n tag⟩ := by
  cases hname : target.fileName? with
  | none =>
    refine ⟨target, "output".toList, by decide, fun tag => ?_⟩
    unfold Writer.temporaryFor Path.withFileName
    rw [hname]
    rfl
  | some n =>
    obtain ⟨before, hsteps, -⟩ := Path.fileName?_eq_some_iff.1 hname
    obtain ⟨q, hq⟩ := Path.exists_parent?_of_steps (p := target) (by rw [hsteps]; simp)
    refine ⟨q, n, Path.slash_notMem_of_mem_steps (p := target) ?_, temporaryFor_eq hname hq⟩
    rw [hsteps]
    exact List.mem_append_right _ List.mem_cons_self

/-- Whether a tag can make a temporary file for a file : it is part of a name, and nothing
stands at the temporary file, which is not on the way to the file either. -/
structure Serves (tag : Text) (target : Path) (d : Disk) : Prop where
  slash : '/' ∉ tag
  vacant : d.node? (d.place (Writer.temporaryFor target tag)) = none
  aside : d.place (Writer.temporaryFor target tag) ∉ d.route target

section

variable (halike : tag.Alike tag')
include halike

/-- Contents are put in place by way of one temporary file as they are by way of another
one. -/
theorem putInPlace_of_tagsAlike (h : Serves tag target d) (h' : Serves tag' target d)
    (c : ByteArray) :
    (d.putInPlace (Writer.temporaryFor target tag') target c).2 =
        (d.putInPlace (Writer.temporaryFor target tag) target c).2 ∧
      SameTree (d.putInPlace (Writer.temporaryFor target tag) target c).1
        (d.putInPlace (Writer.temporaryFor target tag') target c).1 := by
  obtain ⟨q, n, hn, htemporary⟩ := exists_temporaryFor_eq_join target
  obtain ⟨folder, hholder, hholder'⟩ := holder?_join_alike (isName_temporaryName hn h.slash)
    (isName_temporaryName hn h'.slash) (halike.append ('.' :: n ++ ".tmp-".toList)) d q
  rw [← htemporary] at hholder hholder'
  have hplaced := @placed_putInPlace d target _ c h.vacant
  have hplaced' := @placed_putInPlace d target _ c h'.vacant
  have hresult := (putInPlace_snd_of_way h'.vacant h'.aside hholder' c).trans
    (putInPlace_snd_of_way h.vacant h.aside hholder c).symm
  refine ⟨hresult, hplaced'.current.trans hplaced.current.symm, fun x => ?_⟩
  cases hdone : (d.putInPlace (Writer.temporaryFor target tag) target c).2 with
  | ok _ => rw [hplaced.node hdone, hplaced'.node (hresult.trans hdone)]
  | error e => rw [(hplaced.failed e hdone).node, (hplaced'.failed e (hresult.trans hdone)).node]

/-- A file is replaced with one tag as it is with another one, if both can make temporary
files once the directories above the file are made. -/
theorem replaceFile_of_tagsAlike
    (h : (d.makeFolders target).2 = .ok () → Serves tag target (d.makeFolders target).1)
    (h' : (d.makeFolders target).2 = .ok () → Serves tag' target (d.makeFolders target).1)
    (c : ByteArray) :
    (d.replaceFile target tag' c).2 = (d.replaceFile target tag c).2 ∧
      SameTree (d.replaceFile target tag c).1 (d.replaceFile target tag' c).1 := by
  cases hmade : (d.makeFolders target).2 with
  | error e =>
    rw [replaceFile_of_error hmade, replaceFile_of_error hmade]
    exact ⟨rfl, SameTree.refl _⟩
  | ok _ =>
    rw [replaceFile_of_ok hmade, replaceFile_of_ok hmade]
    exact putInPlace_of_tagsAlike halike (h hmade) (h' hmade) c

end

/-- Beside a file that a directory stands at, any temporary file will do. -/
theorem serves_of_reach (h : d.reach (d.origin target) target.steps = .ok l) (htag : '/' ∉ tag)
    (hvacant : d.node? (d.place (Writer.temporaryFor target tag)) = none) :
    Serves tag target (d.makeFolders target).1 := by
  rw [makeFolders_of_reach h]
  refine ⟨htag, hvacant, fun hmem => ?_⟩
  rw [directory_of_mem_route h hmem] at hvacant
  cases hvacant

/-- Any temporary file will do once the directories above a file are there. -/
theorem serves_of_makeFolders (hbase : d.reach (d.origin target) base = .ok l)
    (hsteps : target.steps = base ++ (names ++ [n])) (hnames : ∀ part ∈ names ++ [n], part.IsName)
    (htag : '/' ∉ tag) (hvacant : d.node? (d.place (Writer.temporaryFor target tag)) = none)
    (hmade : (d.makeFolders target).2 = .ok ()) :
    Serves tag target (d.makeFolders target).1 := by
  obtain ⟨patch, hmakes⟩ := exists_makesFolders hbase hsteps hnames
    (d.place (Writer.temporaryFor target tag))
  have hpatched := hmakes.patched d (Ahead.refl hvacant)
  have hplace := place_temporaryFor_of_steps hbase hsteps hnames htag
  have hfree : (d.makeFolders target).1.node?
      ((d.makeFolders target).1.place (Writer.temporaryFor target tag)) = none := by
    rw [place_congr hpatched.current, hpatched.node, hvacant, hplace, hmakes.last_eq_none]
    rfl
  have hgrown := grown_makeFolders d target
  refine ⟨htag, hfree, fun hmem => ?_⟩
  have hbase' : (d.makeFolders target).1.reach ((d.makeFolders target).1.origin target) base =
      .ok l := by
    rw [origin_congr hgrown.current]
    exact reach_of_directories hbase fun _ => hgrown.directory
  have hway : ∀ passed, passed <+: names →
      (d.makeFolders target).1.node? (l ++ passed) = some .directory := by
    intro passed hpassed
    rw [hpatched.node, hmakes.way hmade passed hpassed]
    rfl
  rcases last_or_directory_of_mem_route hsteps hnames hbase' hway hmem with hlast | hdirectory
  · rw [place_congr hgrown.current, hplace] at hlast
    exact temporaryName_ne n tag (by simpa using hlast)
  · rw [hfree] at hdirectory
    cases hdirectory

end Disk

end Folio
