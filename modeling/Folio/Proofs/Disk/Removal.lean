import Folio.Proofs.Disk.Frame

/-!
# Removing several files

`Disk.removeFiles` removes files one after another, and stops at the first one that cannot
be removed. So the paths fall into those whose files are gone and a rest, and the rest is
empty or begins with the path at which the removal has stopped
(`Disk.exists_gone_of_removeFiles`).

A removal takes no directory away, so what is found afterwards was found before
(`Disk.isFile_of_node?`, `Disk.isDirectory_of_node?`), and the files that are left are listed
in the order in which they were (`Disk.files_foldl_removeTree`).
-/

namespace Folio.Disk

variable {d d' : Disk} {p : Path} {l : Location}

/-! ## Disks that have less -/

theorem find?_of_node? {v : DiskNode} (hcurrent : d'.current = d.current)
    (hnode : ∀ x v, d'.node? x = some v → d.node? x = some v)
    (hfind : d'.find? p = .ok (d'.place p)) (hv : d'.node? (d'.place p) = some v) :
    d.find? p = .ok (d.place p) ∧ d.node? (d.place p) = some v := by
  have hv' := hnode _ _ hv
  rw [place_congr hcurrent] at hfind hv'
  exact ⟨find?_of_directories hfind hcurrent.symm (fun x => hnode x _) (by rw [hv']; rfl), hv'⟩

theorem isFile_of_node? (h : d'.isFile p) (hcurrent : d'.current = d.current)
    (hnode : ∀ x v, d'.node? x = some v → d.node? x = some v) : d.isFile p := by
  obtain ⟨c, hc⟩ := isFile_iff.1 h
  obtain ⟨hfind, hv⟩ := read_eq_ok_iff.1 hc
  exact isFile_iff.2 ⟨c, read_eq_ok_iff.2 (find?_of_node? hcurrent hnode hfind hv)⟩

theorem isDirectory_of_node? (h : d'.isDirectory p) (hcurrent : d'.current = d.current)
    (hnode : ∀ x v, d'.node? x = some v → d.node? x = some v) : d.isDirectory p := by
  obtain ⟨hfind, hv⟩ := isDirectory_iff.1 h
  exact isDirectory_iff.2 (find?_of_node? hcurrent hnode hfind hv)

/-- What is left after a removal was there. -/
theorem node?_of_foldl_removeTree {locations : List Location} {v : DiskNode}
    (h : ∀ l ∈ locations, d.node? l ≠ some .directory) {x : Location}
    (hx : (locations.foldl removeTree d).node? x = some v) : d.node? x = some v := by
  rw [node?_foldl_removeTree h] at hx
  split at hx
  · cases hx
  · exact hx

/-! ## The list of files -/

/-- The files of a disk are listed, unless the list has one at the root. -/
theorem mem_files_iff (hl : l ≠ []) : l ∈ d.files ↔ ∃ c, d.node? l = some (.file c) := by
  constructor
  · intro h
    obtain ⟨⟨k, v⟩, hmem, hv⟩ := List.mem_filterMap.1 h
    cases v with
    | directory => cases hv
    | file c =>
      obtain rfl : k = l := Option.some.inj hv
      exact ⟨c, node?_of_mem hmem hl⟩
  · rintro ⟨c, hc⟩
    exact mem_files hc

/-- Each file is listed once. -/
theorem nodup_files (d : Disk) : d.files.Nodup := by
  refine List.pairwise_filterMap.2 ((List.pairwise_map.1 d.distinct).imp ?_)
  rintro ⟨l, v⟩ ⟨m, w⟩ hne l' hl m' hm
  cases v <;> cases w <;> cases hl <;> cases hm
  exact hne

/-- The files that are left keep their order. -/
theorem files_removeTree (h : d.node? l ≠ some .directory) :
    (d.removeTree l).files = d.files.filter fun x => x ≠ l := by
  have hnodes : (d.removeTree l).nodes = d.nodes.filter fun e => !l.isPrefixOf e.1 := rfl
  rw [files, files, hnodes, List.filterMap_filter, List.filter_filterMap]
  refine List.filterMap_congr fun ⟨x, v⟩ hmem => ?_
  cases v with
  | directory => cases l.isPrefixOf x <;> rfl
  | file c =>
    by_cases hx : x = l
    · have hself : l.isPrefixOf l = true := List.isPrefixOf_iff_prefix.2 (List.prefix_refl l)
      simp [hx, hself, Option.filter]
    -- Below what is no directory there is no file.
    · have hbelow : ¬l <+: x := by
        rintro ⟨names, rfl⟩
        have hnil : names ≠ [] := fun hnil => hx (by rw [hnil, List.append_nil])
        have hnode := node?_of_mem hmem (List.append_ne_nil_of_right_ne_nil l hnil)
        exact h (directory_of_append (by rw [hnode]; rfl) hnil)
      rw [← List.isPrefixOf_iff_prefix, Bool.not_eq_true] at hbelow
      simp [hbelow, hx, Option.filter]

theorem files_foldl_removeTree {locations : List Location}
    (h : ∀ l ∈ locations, d.node? l ≠ some .directory) :
    (locations.foldl removeTree d).files = d.files.filter fun x => x ∉ locations := by
  induction locations generalizing d with
  | nil => simp
  | cons l rest ih =>
    obtain ⟨hl, hrest⟩ := List.forall_mem_cons.1 h
    rw [List.foldl_cons, ih fun m hm => removeTree_ne_directory hl (hrest m hm),
      files_removeTree hl, List.filter_filter]
    refine List.filter_congr fun x _ => ?_
    simp [not_or, Bool.and_comm]

/-! ## One removal after another -/

theorem removeFile_of_isFile (h : d.isFile p) :
    d.removeFile p = .ok (d.removeTree (d.place p)) := by
  obtain ⟨c, hc⟩ := isFile_iff.1 h
  obtain ⟨hfind, hnode⟩ := read_eq_ok_iff.1 hc
  refine bind_eq_ok_iff.2 ⟨d.place p, hfind, ?_⟩
  rw [hnode]
  rfl

theorem removeFile_eq_ok (h : d.removeFile p = .ok d') :
    d.isFile p ∧ d' = d.removeTree (d.place p) := by
  obtain ⟨l, hl, hremove⟩ := bind_eq_ok_iff.1 h
  obtain rfl := find?_eq_ok hl
  split at hremove
  · rename_i c hfile
    obtain rfl := Except.ok.inj hremove
    exact ⟨isFile_iff.2 ⟨c, read_eq_ok_iff.2 ⟨hl, hfile⟩⟩, rfl⟩
  · cases hremove

theorem not_directory_of_isFile (h : d.isFile p) : d.node? (d.place p) ≠ some .directory := by
  obtain ⟨c, hc⟩ := isFile_iff.1 h
  rw [(read_eq_ok_iff.1 hc).2]
  exact nofun

/-- The files of some paths are gone, and the others are left, because the first one of them
is no file that could be removed. -/
theorem exists_gone_of_removeFiles {paths : List Path} {result : Except SystemError Unit}
    (h : d.removeFiles paths = (d', result)) : ∃ gone rest, paths = gone ++ rest ∧
      (∀ p ∈ gone, d.isFile p) ∧ d' = (gone.map d.place).foldl removeTree d ∧
      (rest = [] ∧ result = .ok () ∨
        ∃ p more e, rest = p :: more ∧ result = .error e ∧ ¬d'.isFile p) := by
  induction paths generalizing d with
  | nil =>
    obtain ⟨rfl, rfl⟩ := Prod.mk.inj h
    exact ⟨[], [], rfl, nofun, rfl, Or.inl ⟨rfl, rfl⟩⟩
  | cons p more ih =>
    cases hfirst : d.removeFile p with
    | error e =>
      simp only [removeFiles, hfirst] at h
      obtain ⟨rfl, rfl⟩ := Prod.mk.inj h
      refine ⟨[], p :: more, rfl, nofun, rfl, Or.inr ⟨p, more, e, rfl, rfl, fun hfile => ?_⟩⟩
      rw [removeFile_of_isFile hfile] at hfirst
      cases hfirst
    | ok d₁ =>
      simp only [removeFiles, hfirst] at h
      obtain ⟨hfile, rfl⟩ := removeFile_eq_ok hfirst
      have hdirectory := not_directory_of_isFile hfile
      obtain ⟨gone, rest, rfl, hgone, hdisk, hrest⟩ := ih h
      refine ⟨p :: gone, rest, rfl, List.forall_mem_cons.2 ⟨hfile, fun q hq => ?_⟩, hdisk, hrest⟩
      refine isFile_of_node? (hgone q hq) rfl fun x v hx => ?_
      rw [node?_removeTree hdirectory] at hx
      split at hx
      · cases hx
      · exact hx

end Folio.Disk
