import Folio.Proofs.Disk.Route

/-!
# Patches

A patch says what stands at some locations after a change, and leaves the others as they
were (`Disk.Patched`). A patch for a file says no more than that the file has contents and
that the directories on the way down to it are there (`Disk.Fits`).

Patches for files of which none is on the way to another one agree wherever two of them say
something (`Disk.Fits.agree`), and so they can be merged in any order
(`Disk.Merged.sameTree`).
-/

namespace Folio

namespace Disk

variable {d d' d'' : Disk} {l : Location}

/-! ## Patches -/

/-- The second disk is the first one with what the patch says. -/
structure Patched (patch : Location → Option DiskNode) (d d' : Disk) : Prop where
  current : d'.current = d.current
  node : ∀ x, d'.node? x = (patch x).or (d.node? x)

theorem Patched.of_sameTree (h : SameTree d d') : Patched (fun _ => none) d d' :=
  ⟨h.current, h.node⟩

/-- Whether a patch is for a file below a location : it says that the file has contents,
where no directory stands, or that directories are on the way down to it, where no files
stand. -/
def Fits (patch : Location → Option DiskNode) (l : Location) (steps : List Text) (d : Disk) :
    Prop :=
  ∀ x v, patch x = some v →
    (x = l ++ steps ∧ (∃ c, v = .file c) ∧ d.node? x ≠ some .directory) ∨
    (v = .directory ∧ (∃ passed, passed <+: steps ∧ passed ≠ steps ∧ l ++ passed = x) ∧
      ∀ c, d.node? x ≠ some (.file c))

/-- Whether neither of two ways down leads through the end of the other. -/
def Apart (steps others : List Text) : Prop :=
  ¬steps <+: others ∧ ¬others <+: steps

theorem Apart.symm {steps others : List Text} (h : Apart steps others) : Apart others steps :=
  And.symm h

section

variable {patch patch' : Location → Option DiskNode} {steps others : List Text} {x : Location}
  {v v' : DiskNode}

/-- What a patch says is on the way to its file. -/
theorem Fits.isPrefix (h : Fits patch l steps d) (hx : patch x = some v) : x <+: l ++ steps := by
  rcases h x v hx with ⟨rfl, -⟩ | ⟨-, ⟨passed, hpassed, -, rfl⟩, -⟩
  · exact List.prefix_refl _
  · exact (List.prefix_append_right_inj l).2 hpassed

/-- What a patch says is below its location. -/
theorem Fits.below (h : Fits patch l steps d) (hx : patch x = some v) : l <+: x := by
  rcases h x v hx with ⟨rfl, -⟩ | ⟨-, ⟨passed, -, -, rfl⟩, -⟩ <;> exact List.prefix_append l _

/-- A patch for another file says of the way to a file at most that directories are
there. -/
theorem Fits.directory (h : Fits patch l others d) (hapart : Apart steps others)
    (hx : patch x = some v) (hbelow : x <+: l ++ steps) :
    v = .directory ∧ x ≠ l ++ steps ∧ ∀ c, d.node? x ≠ some (.file c) := by
  rcases h x v hx with ⟨rfl, -⟩ | ⟨rfl, ⟨passed, hpassed, -, rfl⟩, hfile⟩
  · exact absurd ((List.prefix_append_right_inj l).1 hbelow) hapart.2
  · refine ⟨rfl, fun hsame => ?_, hfile⟩
    rw [List.append_cancel_left hsame] at hpassed
    exact hapart.1 hpassed

/-- Patches for files that are apart agree. -/
theorem Fits.agree (h : Fits patch l steps d) (h' : Fits patch' l others d)
    (hapart : Apart steps others) (hx : patch x = some v) (hx' : patch' x = some v') : v = v' := by
  rw [(h.directory hapart.symm hx (h'.isPrefix hx')).1, (h'.directory hapart hx' (h.isPrefix hx)).1]

end

/-- The second disk is the first one with what some patches say. -/
structure Merged {α : Type} (patch : α → Location → Option DiskNode) (done : List α)
    (d d' : Disk) : Prop where
  current : d'.current = d.current
  said : ∀ a ∈ done, ∀ x v, patch a x = some v → d'.node? x = some v
  kept : ∀ x, (∀ a ∈ done, patch a x = none) → d'.node? x = d.node? x

namespace Merged

variable {α : Type} {patch : α → Location → Option DiskNode} {done : List α} {a : α}

theorem nil (patch : α → Location → Option DiskNode) (d : Disk) : Merged patch [] d d :=
  ⟨rfl, nofun, fun _ _ => rfl⟩

/-- One patch more, which agrees with all the others. -/
theorem concat (h : Merged patch done d d') (hpatched : Patched (patch a) d' d'')
    (hagree : ∀ b ∈ done, ∀ x v v', patch a x = some v → patch b x = some v' → v = v') :
    Merged patch (done ++ [a]) d d'' := by
  refine ⟨hpatched.current.trans h.current, fun b hb x v hx => ?_, fun x hx => ?_⟩
  · rw [hpatched.node]
    rcases List.mem_append.1 hb with hb | hb
    · cases ha : patch a x with
      | none => exact h.said b hb x v hx
      | some w =>
        rw [hagree b hb x w v ha hx]
        rfl
    · obtain rfl := List.mem_singleton.1 hb
      rw [hx]
      rfl
  · rw [hpatched.node, hx a (List.mem_append_right _ List.mem_cons_self)]
    exact h.kept x fun b hb => hx b (List.mem_append_left _ hb)

theorem said_or_kept (h : Merged patch done d d') (x : Location) :
    (∃ a ∈ done, ∃ v, patch a x = some v ∧ d'.node? x = some v) ∨ d'.node? x = d.node? x := by
  by_cases hx : ∃ a ∈ done, ∃ v, patch a x = some v
  · obtain ⟨a, ha, v, hv⟩ := hx
    exact Or.inl ⟨a, ha, v, hv, h.said a ha x v hv⟩
  · exact Or.inr (h.kept x fun a ha =>
      Option.eq_none_iff_forall_ne_some.2 fun v hv => hx ⟨a, ha, v, hv⟩)

section

variable {patch' : α → Location → Option DiskNode} {others : List α}

/-- Where patches that are merged change anything, patches that come to the same one by one
make the same change. -/
theorem node?_of_alike (h : Merged patch done d d') (h' : Merged patch' others d d'')
    (hperm : done.Perm others)
    (halike : ∀ a ∈ done, ∀ x, (patch' a x).or (d.node? x) = (patch a x).or (d.node? x))
    {x : Location} (hchanged : d'.node? x ≠ d.node? x) : d''.node? x = d'.node? x := by
  rcases h.said_or_kept x with ⟨a, ha, v, hv, hsaid⟩ | hkept
  · have hor := halike a ha x
    rw [hv, Option.some_or] at hor
    rw [hsaid] at hchanged ⊢
    refine h'.said a (hperm.mem_iff.1 ha) x v ?_
    cases hpatch : patch' a x with
    | none =>
      rw [hpatch, Option.none_or] at hor
      exact absurd hor.symm hchanged
    | some w => rwa [hpatch, Option.some_or] at hor
  · exact absurd hkept hchanged

/-- Patches give the same tree in another order, and so do patches that come to the same one
by one. -/
theorem sameTree (h : Merged patch done d d') (h' : Merged patch' others d d'')
    (hperm : done.Perm others)
    (halike : ∀ a ∈ done, ∀ x, (patch' a x).or (d.node? x) = (patch a x).or (d.node? x)) :
    SameTree d' d'' := by
  refine ⟨h'.current.trans h.current.symm, fun x => ?_⟩
  by_cases hchanged : d'.node? x = d.node? x
  · by_cases hchanged' : d''.node? x = d.node? x
    · rw [hchanged, hchanged']
    · exact (h'.node?_of_alike h hperm.symm
        (fun a ha x => (halike a (hperm.mem_iff.2 ha) x).symm) hchanged').symm
  · exact h.node?_of_alike h' hperm halike hchanged

end

end Merged

end Disk

end Folio
