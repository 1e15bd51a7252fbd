import Folio.Proofs.Disk.Frame
import Folio.Proofs.Disk.Reach

/-!
# Making directories

`Disk.makeDirectories` makes new directories at the places of a path and of the paths
above it, and changes nothing else (`Disk.grown_makeDirectories`). It makes none where a
directory is found (`Disk.makeUpTo_of_isDirectory`), and none at a path that no system
would look up (`Disk.makeUpTo_of_start?`).
-/

namespace Folio

namespace Path

/-- Whether a path is one of those above another one, as that is spelled : its parent, the
parent of that, and so on. -/
inductive Above : Path → Path → Prop
  | parent {p q : Path} (h : p.parent? = some q) : Above q p
  | step {p q r : Path} (h : Above q p) (h' : q.parent? = some r) : Above r p

theorem Above.of_parent? {p q r : Path} (h : p.parent? = some q) (hr : r.Above q) :
    r.Above p := by
  induction hr with
  | parent h' => exact .step (.parent h) h'
  | step _ h' ih => exact .step (ih h) h'

/-- What lies above an absolute path is absolute. -/
theorem Above.isAbsolute {p q : Path} (h : q.Above p) (hp : p.isAbsolute) : q.isAbsolute := by
  induction h with
  | parent hq => rwa [isAbsolute_of_parent? hq]
  | step _ hq ih =>
    rw [isAbsolute_of_parent? hq]
    exact ih hp

end Path

namespace Disk

variable {d d' d'' : Disk} {p q : Path} {l : Location} {places places' : Location → Prop}

/-! ## Where directories are made -/

/-- The second disk is the first one with some new directories, each at one of the
places. -/
structure Grown (places : Location → Prop) (d d' : Disk) : Prop where
  current : d'.current = d.current
  node : ∀ l, d'.node? l = d.node? l ∨
    d.node? l = none ∧ d'.node? l = some .directory ∧ places l

namespace Grown

theorem refl (places : Location → Prop) (d : Disk) : Grown places d d :=
  ⟨rfl, fun _ => Or.inl rfl⟩

theorem mono (h : Grown places d d') (hplaces : ∀ l, places l → places' l) :
    Grown places' d d' :=
  ⟨h.current, fun l => (h.node l).imp_right fun ⟨hnone, hnew, hl⟩ => ⟨hnone, hnew, hplaces l hl⟩⟩

theorem directory (h : Grown places d d') (hl : d.node? l = some .directory) :
    d'.node? l = some .directory := by
  rcases h.node l with heq | ⟨hnone, -⟩
  · rw [heq, hl]
  · rw [hl] at hnone
    cases hnone

theorem trans (h : Grown places d d') (h' : Grown places d' d'') : Grown places d d'' := by
  refine ⟨h'.current.trans h.current, fun l => ?_⟩
  rcases h.node l with heq | ⟨hnone, hnew, hl⟩
  · rw [← heq]
    exact h'.node l
  · exact Or.inr ⟨hnone, h'.directory hnew, hl⟩

theorem file_iff (h : Grown places d d') {c : ByteArray} :
    d'.node? l = some (.file c) ↔ d.node? l = some (.file c) := by
  rcases h.node l with heq | ⟨hnone, hnew, -⟩
  · rw [heq]
  · rw [hnone, hnew]
    exact iff_of_false nofun nofun

end Grown

/-- A directory that is made stands at the place of its path, where nothing stood. -/
theorem makeDirectory_eq_ok (h : d.makeDirectory p = .ok d') :
    d.node? (d.place p) = none ∧ d'.current = d.current ∧
      ∀ x, d'.node? x = if x = d.place p then some .directory else d.node? x := by
  obtain ⟨⟨folder, last⟩, hholder, h⟩ := bind_eq_ok_iff.1 h
  cases last with
  | dots => cases h
  | name n slash =>
    dsimp only at h
    split at h
    · cases h
    rename_i hnone
    obtain ⟨-, hcurrent, hnode, -⟩ := putAt_eq_ok h
    rw [(place_of_holder? hholder).1]
    exact ⟨by simpa using hnone, hcurrent, hnode⟩

theorem grown_ensureDirectory (d : Disk) (p : Path) :
    Grown (· = d.place p) d (d.ensureDirectory p).1 := by
  unfold ensureDirectory
  split
  · rename_i h
    obtain ⟨hnone, hcurrent, hnode⟩ := makeDirectory_eq_ok h
    refine ⟨hcurrent, fun l => ?_⟩
    by_cases hl : l = d.place p
    · exact Or.inr ⟨by rw [hl, hnone], by rw [hnode, if_pos hl], hl⟩
    · exact Or.inl (by rw [hnode, if_neg hl])
  · split <;> exact Grown.refl _ d

theorem grown_makeUpTo (d : Disk) (p : Path) (above : Nat) :
    Grown (fun l => ∃ q, (q = p ∨ q.Above p) ∧ l = d.place q) d (d.makeUpTo p above).1 := by
  have hensure : ∀ (d' : Disk) (p : Path), d'.current = d.current →
      Grown (fun l => ∃ q, (q = p ∨ q.Above p) ∧ l = d.place q) d' (d'.ensureDirectory p).1 := by
    intro d' p hcurrent
    refine (grown_ensureDirectory d' p).mono ?_
    rintro l rfl
    exact ⟨p, Or.inl rfl, place_congr hcurrent p⟩
  fun_induction makeUpTo d p above with
  | case1 p => exact Grown.refl _ d
  | case2 p _ above parent hparent _ d' hmade ih =>
    rw [hmade] at ih
    refine (ih.mono ?_).trans (hensure d' p ih.current)
    rintro l ⟨q, rfl | hq, rfl⟩
    · exact ⟨q, Or.inr (.parent hparent), rfl⟩
    · exact ⟨q, Or.inr (hq.of_parent? hparent), rfl⟩
  | case3 p _ above parent hparent _ d' e hmade ih =>
    rw [hmade] at ih
    refine ih.mono ?_
    rintro l ⟨q, rfl | hq, rfl⟩
    · exact ⟨q, Or.inr (.parent hparent), rfl⟩
    · exact ⟨q, Or.inr (hq.of_parent? hparent), rfl⟩
  | case4 => exact hensure d _ rfl

theorem grown_makeDirectories (d : Disk) (p : Path) :
    Grown (fun l => ∃ q, (q = p ∨ q.Above p) ∧ l = d.place q) d (d.makeDirectories p).1 :=
  grown_makeUpTo d p _

/-! ## Where nothing has to be made -/

/-- A directory is not made where something is found. -/
theorem makeDirectory_of_find? (h : d.find? p = .ok l) (hl : (d.node? l).isSome) :
    d.makeDirectory p = .error .entryExists := by
  obtain ⟨folder, last, hholder⟩ := exists_holder?_of_find? h
  unfold makeDirectory
  rw [hholder]
  cases last with
  | dots => rfl
  | name n slash =>
    rw [find?_eq_ok h, (place_of_holder? hholder).1] at hl
    exact if_pos hl

theorem makeUpTo_of_text_eq_nil (h : p.text = []) (above : Nat) :
    d.makeUpTo p above = (d, .ok ()) := by
  unfold makeUpTo
  rw [h]
  rfl

/-- Nothing is made where a directory is found. -/
theorem makeUpTo_of_isDirectory (h : d.isDirectory p) (above : Nat) :
    d.makeUpTo p above = (d, .ok ()) := by
  obtain ⟨hfind, hdir⟩ := isDirectory_iff.1 h
  have hexists := makeDirectory_of_find? hfind (by rw [hdir]; rfl)
  have hensure : d.ensureDirectory p = (d, .ok ()) := by
    rw [ensureDirectory, hexists]
    exact if_pos h
  unfold makeUpTo
  split
  · rfl
  · rw [hexists]
    cases above <;> exact hensure

theorem makeUpTo_of_makeDirectory (htext : p.text ≠ []) (above : Nat)
    (h : d.makeDirectory p ≠ .error .noEntry) : d.makeUpTo p above = d.ensureDirectory p := by
  unfold makeUpTo
  rw [if_neg (by simpa using htext)]
  split
  · rename_i hmake _
    exact absurd hmake h
  · rfl

/-- What is not usable is not made, whatever the disk. -/
theorem makeUpTo_of_start? {e : SystemError} (htext : p.text ≠ [])
    (h : d.start? p = .error e) (above : Nat) : d.makeUpTo p above = (d, .error e) := by
  have hne : e ≠ .noEntry := by
    rintro rfl
    unfold start? at h
    split at h
    · cases h
    split at h
    · rename_i hempty
      exact htext (List.isEmpty_iff.1 hempty)
    split at h
    · cases h
    · split at h <;> cases h
  have hmake : d.makeDirectory p = .error e := by
    rw [makeDirectory, holder?, h]
    rfl
  have hmissing : ¬d.isDirectory p := by
    intro hdirectory
    obtain ⟨start, hstart, -⟩ := bind_eq_ok_iff.1 (isDirectory_iff.1 hdirectory).1
    rw [h] at hstart
    cases hstart
  have hother : d.makeDirectory p ≠ .error .noEntry := by
    rw [hmake]
    exact fun h => hne (Except.error.inj h)
  rw [makeUpTo_of_makeDirectory htext above hother, ensureDirectory, hmake]
  exact if_neg hmissing

theorem makeUpTo_of_noEntry (htext : p.text ≠ []) (above : Nat)
    (h : d.makeDirectory p = .error .noEntry) (hq : p.parent? = some q) :
    d.makeUpTo p (above + 1) =
      match d.makeUpTo q above with
      | (d, .ok ()) => d.ensureDirectory p
      | (d, .error e) => (d, .error e) := by
  have hunfold := makeUpTo.eq_def d p (above + 1)
  rw [if_neg (by simpa using htext), h, hq] at hunfold
  exact hunfold

theorem putAt_ne_noEntry (d : Disk) (l : Location) (n : Text) (v : DiskNode) :
    d.putAt l n v ≠ .error .noEntry := by
  intro h
  unfold putAt at h
  split at h
  · split at h <;> cases h
  · cases h

theorem IsUsable.of_parent? (h : IsUsable p) (hq : p.parent? = some q) :
    q.text = [] ∨ IsUsable q := by
  obtain ⟨more, hmore⟩ := Path.text_prefix_of_parent? hq
  obtain ⟨hnul, -, hsize⟩ := h
  rw [← hmore] at hnul hsize
  rw [Text.size_append] at hsize
  refine or_iff_not_imp_left.2 fun hne => ⟨fun hmem => ?_, hne, by omega⟩
  exact hnul (List.mem_append_left _ hmem)

end Disk

end Folio
