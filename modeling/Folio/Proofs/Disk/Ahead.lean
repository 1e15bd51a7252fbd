import Folio.Proofs.Disk.Headway
import Folio.Proofs.Disk.Patch
import Folio.Proofs.Disk.Replace

/-!
# The same change on different disks

A disk is ahead of another one on the way to a file if it has the same at the file and has
gained nothing on the way but directories (`Disk.Ahead`), as it is after patches for other
files (`Disk.Merged.ahead`). Replacing the file has the same result there, whether it
succeeds or fails, and is the same patch (`Disk.exists_patch_replaceFile`).
-/

namespace Folio

namespace Disk

variable {d d' : Disk} {p q target : Path} {tag : Text} {l : Location}
  {base names steps : List Text} {n : Text} {temporary : Location}

/-! ## Being ahead -/

/-- The second disk is ahead of the first one on the way that leads from a location down
to a file : it has the same at the file, no node stands at the temporary file, and on the
way directories may be new. -/
structure Ahead (l : Location) (steps : List Text) (temporary : Location) (d d' : Disk) :
    Prop where
  current : d'.current = d.current
  directory : ∀ x, d.node? x = some .directory → d'.node? x = some .directory
  way : ∀ passed, passed <+: steps → passed ≠ steps →
    d'.node? (l ++ passed) = d.node? (l ++ passed) ∨
      d.node? (l ++ passed) = none ∧ d'.node? (l ++ passed) = some .directory
  target : d'.node? (l ++ steps) = d.node? (l ++ steps)
  temporary : d'.node? temporary = none

theorem Ahead.refl (h : d.node? temporary = none) : Ahead l steps temporary d d :=
  ⟨rfl, fun _ => id, fun _ _ _ => Or.inl rfl, rfl, h⟩

theorem ne_concat_of_isPrefix {passed : List Text} (h : passed <+: names) :
    passed ≠ names ++ [n] := by
  rintro rfl
  have hlength := h.length_le
  rw [List.length_append, List.length_singleton] at hlength
  omega

theorem Ahead.headway (h : Ahead l (names ++ [n]) temporary d d') :
    d'.headway l names = d.headway l names := by
  refine headway_congr fun passed hpassed c => ?_
  rcases h.way passed (hpassed.trans (List.prefix_append names [n]))
    (ne_concat_of_isPrefix hpassed) with heq | ⟨hnone, hnew⟩
  · rw [heq]
  · rw [hnone, hnew]
    exact iff_of_false nofun nofun

/-- Patches for files that are apart from a file are ahead on the way to it. -/
theorem Merged.ahead {α : Type} {patch : α → Location → Option DiskNode} {done : List α}
    {others : α → List Text} (h : Merged patch done d d')
    (hfits : ∀ b ∈ done, Fits (patch b) l (others b) d)
    (hapart : ∀ b ∈ done, Apart steps (others b)) (hvacant : d.node? temporary = none)
    (hown : ∀ b ∈ done, ¬temporary <+: l ++ others b) : Ahead l steps temporary d d' := by
  refine ⟨h.current, fun x hx => ?_, fun passed hpassed _ => ?_, ?_, ?_⟩
  · rcases h.said_or_kept x with ⟨b, hb, v, hv, hsaid⟩ | hkept
    · rcases hfits b hb x v hv with ⟨-, -, hfree⟩ | ⟨rfl, -, -⟩
      · exact absurd hx hfree
      · exact hsaid
    · rw [hkept, hx]
  · rcases h.said_or_kept (l ++ passed) with ⟨b, hb, v, hv, hsaid⟩ | hkept
    · obtain ⟨rfl, -, hfile⟩ := (hfits b hb).directory (hapart b hb) hv
        ((List.prefix_append_right_inj l).2 hpassed)
      cases hnode : d.node? (l ++ passed) with
      | none => exact Or.inr ⟨rfl, hsaid⟩
      | some v =>
        cases v with
        | directory => exact Or.inl hsaid
        | file c => exact absurd hnode (hfile c)
    · exact Or.inl hkept
  · rcases h.said_or_kept (l ++ steps) with ⟨b, hb, v, hv, -⟩ | hkept
    · exact absurd rfl ((hfits b hb).directory (hapart b hb) hv (List.prefix_refl _)).2.1
    · exact hkept
  · rcases h.said_or_kept temporary with ⟨b, hb, v, hv, -⟩ | hkept
    · exact absurd ((hfits b hb).isPrefix hv) (hown b hb)
    · rw [hkept, hvacant]

/-! ## Making the directories above a file -/

/-- The patch by which directories are there, from a location down some names. -/
def directoriesDown (l : Location) (names : List Text) : Location → Option DiskNode :=
  fun x => if x ∈ names.inits.map (l ++ ·) then some .directory else none

theorem directoriesDown_eq_some_iff {x : Location} {v : DiskNode} :
    directoriesDown l names x = some v ↔
      v = .directory ∧ ∃ passed, passed <+: names ∧ l ++ passed = x := by
  unfold directoriesDown
  rw [← mem_map_inits]
  constructor
  · intro h
    split at h
    · rename_i hmem
      exact ⟨(Option.some.inj h).symm, hmem⟩
    · cases h
  · rintro ⟨rfl, hmem⟩
    exact if_pos hmem

theorem Headed.patched {way : List Text × Option SystemError}
    {made : Disk × Except SystemError Unit} (h : Headed l way d made) :
    Patched (directoriesDown l way.1) d made.1 := by
  refine ⟨h.current, fun x => ?_⟩
  rw [h.node, directoriesDown]
  split <;> rfl

/-- Whether a patch is what making the directories above a file does : it says no more than
that directories are on the way down to the file, it says so of all of the way if they can
be made, and on every disk that is ahead it is what making them does, with the same
result. -/
structure MakesFolders (patch : Location → Option DiskNode) (target : Path) (l : Location)
    (names : List Text) (n : Text) (temporary : Location) (d : Disk) : Prop where
  directory : ∀ x v, patch x = some v →
    v = .directory ∧ ∃ passed, passed <+: names ∧ l ++ passed = x
  way : (d.makeFolders target).2 = .ok () →
    ∀ passed, passed <+: names → patch (l ++ passed) = some .directory
  patched : ∀ d', Ahead l (names ++ [n]) temporary d d' →
    Patched patch d' (d'.makeFolders target).1
  result : ∀ d', Ahead l (names ++ [n]) temporary d d' →
    (d'.makeFolders target).2 = (d.makeFolders target).2

namespace MakesFolders

variable {patch : Location → Option DiskNode}

theorem last_eq_none (h : MakesFolders patch target l names n temporary d) (m : Text) :
    patch (l ++ (names ++ [m])) = none := by
  refine Option.eq_none_iff_forall_ne_some.2 fun v hv => ?_
  obtain ⟨-, passed, hpassed, hplace⟩ := h.directory _ v hv
  exact ne_concat_of_isPrefix hpassed (List.append_cancel_left hplace)

theorem fits (h : MakesFolders patch target l names n temporary d)
    (hvacant : d.node? temporary = none) : Fits patch l (names ++ [n]) d := by
  intro x v hv
  obtain ⟨rfl, passed, hpassed, rfl⟩ := h.directory x v hv
  refine Or.inr ⟨rfl, ⟨passed, hpassed.trans (List.prefix_append names [n]),
    ne_concat_of_isPrefix hpassed, rfl⟩, fun c hc => ?_⟩
  -- No directory can be made where a file stands.
  rw [← (grown_makeFolders d target).file_iff, (h.patched d (Ahead.refl hvacant)).node, hv] at hc
  cases hc

end MakesFolders

/-- Contents that are put in place make the patch one for the file, and without them it stays
as it is. -/
theorem Placed.patched {patch : Location → Option DiskNode} {x : Location} {c : ByteArray}
    {placed : Disk × Except SystemError Unit} (h : Placed x c d' placed)
    (hpatched : Patched patch d d') :
    (placed.2 = .ok () →
      Patched (fun y => if y = x then some (.file c) else patch y) d placed.1) ∧
    ∀ e, placed.2 = .error e → Patched patch d placed.1 := by
  refine ⟨fun hok => ⟨h.current.trans hpatched.current, fun y => ?_⟩, fun e he => ?_⟩
  · rw [h.node hok, hpatched.node]
    split <;> rfl
  · have hsame := h.failed e he
    exact ⟨hsame.current.trans hpatched.current, fun y => (hsame.node y).trans (hpatched.node y)⟩

section Replace

variable (hbase : d.reach (d.origin target) base = .ok l)
  (hsteps : target.steps = base ++ (names ++ [n])) (hnames : ∀ part ∈ names ++ [n], part.IsName)
include hsteps hnames

theorem headed_makeFolders (hbase : d'.reach (d'.origin target) base = .ok l)
    (hq : target.parent? = some q) (husable : q.text = [] ∨ IsUsable q) :
    Headed l (d'.headway l names) d' (d'.makeFolders target) := by
  have hqsteps : q.steps = base ++ names := by
    rw [Path.steps_of_parent? hq, hsteps, ← List.append_assoc, List.dropLast_concat]
  have hlength : names.length ≤ q.components.length := by
    have h := Path.length_steps_le q
    rw [hqsteps, List.length_append] at h
    omega
  have hreach : d'.reach (d'.origin q) base = .ok l := by
    rw [origin, Path.isAbsolute_of_parent? hq]
    exact hbase
  rw [makeFolders, hq]
  exact headed_makeUpTo hreach hqsteps
    (fun part hpart => hnames part (List.mem_append_left _ hpart)) husable
    (Path.trimmed_of_parent? hq) hlength

omit hsteps hnames in
/-- A path above that no system would look up keeps all directories from being made. -/
theorem makeFolders_of_not_isUsable {e : SystemError} (hq : target.parent? = some q)
    (htext : q.text ≠ []) (hstart : d.start? q = .error e) (hcurrent : d'.current = d.current) :
    d'.makeFolders target = (d', .error e) := by
  rw [makeFolders, hq]
  exact makeUpTo_of_start? htext (by rw [start?_congr hcurrent, hstart]) _

include hbase

/-- Making the directories above a file is a patch. -/
theorem exists_makesFolders (temporary : Location) :
    ∃ patch, MakesFolders patch target l names n temporary d := by
  obtain ⟨q, hq⟩ := Path.exists_parent?_of_steps (p := target) (by rw [hsteps]; simp)
  by_cases husable : q.text = [] ∨ IsUsable q
  · have hhere := headed_makeFolders hsteps hnames hbase hq husable
    have hheaded : ∀ d', Ahead l (names ++ [n]) temporary d d' →
        Headed l (d.headway l names) d' (d'.makeFolders target) := by
      intro d' hahead
      rw [← hahead.headway]
      refine headed_makeFolders hsteps hnames ?_ hq husable
      rw [origin_congr hahead.current]
      exact reach_of_directories hbase hahead.directory
    refine ⟨directoriesDown l (d.headway l names).1, fun x v hv => ?_, fun hresult => ?_,
      fun d' hahead => (hheaded d' hahead).patched,
      fun d' hahead => (hheaded d' hahead).result.trans hhere.result.symm⟩
    · obtain ⟨hdirectory, passed, hpassed, hplace⟩ := directoriesDown_eq_some_iff.1 hv
      exact ⟨hdirectory, passed, hpassed.trans (prefix_headway d l names), hplace⟩
    · have hstop : (d.headway l names).2 = none := by
        rw [hhere.result] at hresult
        cases hstop : (d.headway l names).2 with
        | none => rfl
        | some e =>
          rw [hstop] at hresult
          cases hresult
      rw [headway_fst_of_none hstop]
      exact fun passed hpassed => directoriesDown_eq_some_iff.2 ⟨rfl, passed, hpassed, rfl⟩
  · obtain ⟨htext, hunusable⟩ := not_or.1 husable
    cases hstart : d.start? q with
    | ok start => exact absurd (start?_eq_ok_iff.1 hstart).1 hunusable
    | error e =>
      have hfail := fun {d' : Disk} (hcurrent : d'.current = d.current) =>
        makeFolders_of_not_isUsable hq htext hstart hcurrent
      refine ⟨fun _ => none, nofun, ?_, fun d' hahead => ?_, fun d' hahead => ?_⟩
      · rw [hfail rfl]
        exact nofun
      · rw [hfail hahead.current]
        exact Patched.of_sameTree (SameTree.refl d')
      · rw [hfail hahead.current, hfail rfl]

/-! ## Replacing a file -/

omit hbase in
/-- The temporary file stands beside the file. -/
theorem steps_temporaryFor (htag : '/' ∉ tag) :
    (Writer.temporaryFor target tag).steps = base ++ (names ++ [temporaryName n tag]) ∧
      (Writer.temporaryFor target tag).isAbsolute = target.isAbsolute := by
  have hsteps' : target.steps = base ++ names ++ [n] := hsteps.trans (List.append_assoc _ _ _).symm
  have hn : n.IsName := hnames n (List.mem_append_right _ List.mem_cons_self)
  have hname : target.fileName? = some n := Path.fileName?_eq_some_iff.2 ⟨_, hsteps', hn.2.1⟩
  obtain ⟨q, hq⟩ := Path.exists_parent?_of_steps (p := target) (by rw [hsteps']; simp)
  have htemporary : (temporaryName n tag).IsName := isName_temporaryName hn.2.2 htag
  have hrel : ¬(⟨temporaryName n tag⟩ : Path).isAbsolute := by
    simp [Path.isAbsolute, temporaryName]
  rw [temporaryFor_eq hname hq, Path.steps_join hrel, Path.steps_name htemporary,
    Path.steps_of_parent? hq, hsteps', List.dropLast_concat, List.append_assoc,
    Path.isAbsolute_join_of_relative hrel, Path.isAbsolute_of_parent? hq]
  exact ⟨rfl, rfl⟩

theorem place_temporaryFor_of_steps (htag : '/' ∉ tag) :
    d.place (Writer.temporaryFor target tag) = l ++ (names ++ [temporaryName n tag]) := by
  obtain ⟨htemporary, habs⟩ := steps_temporaryFor hsteps hnames htag
  refine place_of_steps htemporary (fun part hpart => ?_) (by rw [origin, habs]; exact hbase)
  rcases List.mem_append.1 hpart with hpart | hpart
  · exact hnames part (List.mem_append_left _ hpart)
  · rw [List.mem_singleton.1 hpart]
    exact isName_temporaryName (hnames n (List.mem_append_right _ List.mem_cons_self)).2.2 htag

section Patches

variable {patch : Location → Option DiskNode} (htag : '/' ∉ tag)
  (hmakes : MakesFolders patch target l names n (d.place (Writer.temporaryFor target tag)) d)
  (hahead : Ahead l (names ++ [n]) (d.place (Writer.temporaryFor target tag)) d d')
include htag hmakes hahead

/-- Once its directories are made, contents are put in place of a file with the same result
on every disk that is ahead. -/
theorem Ahead.putInPlace (hvacant : d.node? (d.place (Writer.temporaryFor target tag)) = none)
    (hok : (d.makeFolders target).2 = .ok ()) (c : ByteArray) :
    let temporary := Writer.temporaryFor target tag
    ((d'.makeFolders target).1.putInPlace temporary target c).2 =
      ((d.makeFolders target).1.putInPlace temporary target c).2 := by
  intro temporary
  have hhere := hmakes.patched d (Ahead.refl hvacant)
  have hthere := hmakes.patched d' hahead
  have hagree : ∀ {p : Path} {m : Text}, p.steps = base ++ (names ++ [m]) →
      p.isAbsolute = target.isAbsolute → m.IsName →
      d'.node? (l ++ (names ++ [m])) = d.node? (l ++ (names ++ [m])) →
      ∀ x ∈ (d.makeFolders target).1.route p,
        (d'.makeFolders target).1.node? x = (d.makeFolders target).1.node? x := by
    intro p m hp habs hm hnode
    have horigin : (d.makeFolders target).1.origin p = d.origin target := by
      rw [origin_congr hhere.current, origin, habs]
      rfl
    refine agree_on_route (l := l) hp (fun part hpart => ?_) ?_ ?_ (fun passed hpassed => ?_) ?_
    · rcases List.mem_append.1 hpart with hpart | hpart
      · exact hnames part (List.mem_append_left _ hpart)
      · rwa [List.mem_singleton.1 hpart]
    · rw [horigin]
      exact reach_of_directories hbase fun _ => (grown_makeFolders d target).directory
    · rw [horigin]
      exact reach_of_directories hbase fun x hx =>
        (grown_makeFolders d' target).directory (hahead.directory x hx)
    · rw [hhere.node, hthere.node, hmakes.way hok passed hpassed]
      exact ⟨rfl, rfl⟩
    · rw [hhere.node, hthere.node, hmakes.last_eq_none, hnode]
  have hcurrent : (d'.makeFolders target).1.current = (d.makeFolders target).1.current := by
    rw [hthere.current, hhere.current, hahead.current]
  have hn : n.IsName := hnames n (List.mem_append_right _ List.mem_cons_self)
  obtain ⟨htemporary, habs⟩ := steps_temporaryFor hsteps hnames htag
  refine putInPlace_congr hcurrent ?_ (hagree hsteps rfl hn hahead.target) c
  refine hagree htemporary habs (isName_temporaryName hn.2.2 htag) ?_
  rw [← place_temporaryFor_of_steps hbase hsteps hnames htag, hahead.temporary, hvacant]

/-- What replacing a file comes to on a disk that is ahead, once its directories are made. -/
theorem Ahead.placed_replaceFile (hok : (d.makeFolders target).2 = .ok ()) (c : ByteArray) :
    Placed (l ++ (names ++ [n])) c (d'.makeFolders target).1 (d'.replaceFile target tag c) := by
  have hpatched := hmakes.patched d' hahead
  have hcurrent : (d'.makeFolders target).1.current = d.current :=
    hpatched.current.trans hahead.current
  rw [replaceFile_of_ok ((hmakes.result d' hahead).trans hok),
    ← place_of_steps hsteps hnames hbase, ← place_congr hcurrent]
  refine placed_putInPlace ?_
  rw [place_congr hcurrent, hpatched.node, hahead.temporary,
    place_temporaryFor_of_steps hbase hsteps hnames htag, hmakes.last_eq_none]
  rfl

end Patches

/-- Replacing a file is the same patch on every disk that is ahead, and has the same
result. -/
theorem exists_patch_replaceFile (htag : '/' ∉ tag) (c : ByteArray)
    (hvacant : d.node? (d.place (Writer.temporaryFor target tag)) = none) :
    ∃ patch : Location → Option DiskNode, Fits patch l (names ++ [n]) d ∧
      (∀ e, (d.replaceFile target tag c).2 = .error e → patch (l ++ (names ++ [n])) = none) ∧
      ∀ d', Ahead l (names ++ [n]) (d.place (Writer.temporaryFor target tag)) d d' →
        Patched patch d' (d'.replaceFile target tag c).1 ∧
          (d'.replaceFile target tag c).2 = (d.replaceFile target tag c).2 := by
  obtain ⟨patch, hmakes⟩ := exists_makesFolders hbase hsteps hnames
    (d.place (Writer.temporaryFor target tag))
  have hfits := hmakes.fits hvacant
  cases hfolders : (d.makeFolders target).2 with
  | error e =>
    refine ⟨patch, hfits, fun _ _ => hmakes.last_eq_none n, fun d' hahead => ?_⟩
    rw [replaceFile_of_error ((hmakes.result d' hahead).trans hfolders),
      replaceFile_of_error hfolders]
    exact ⟨hmakes.patched d' hahead, rfl⟩
  | ok _ =>
    have hplaced : ∀ d', Ahead l (names ++ [n]) (d.place (Writer.temporaryFor target tag)) d d' →
        Placed (l ++ (names ++ [n])) c (d'.makeFolders target).1 (d'.replaceFile target tag c) :=
      fun d' hahead => hahead.placed_replaceFile hbase hsteps hnames htag hmakes hfolders c
    have hresult : ∀ d', Ahead l (names ++ [n]) (d.place (Writer.temporaryFor target tag)) d d' →
        (d'.replaceFile target tag c).2 = (d.replaceFile target tag c).2 := by
      intro d' hahead
      rw [replaceFile_of_ok ((hmakes.result d' hahead).trans hfolders),
        replaceFile_of_ok hfolders]
      exact hahead.putInPlace hbase hsteps hnames htag hmakes hvacant hfolders c
    cases hreplaced : (d.replaceFile target tag c).2 with
    | error e =>
      refine ⟨patch, hfits, fun _ _ => hmakes.last_eq_none n, fun d' hahead => ?_⟩
      have hfailed := (hresult d' hahead).trans hreplaced
      exact ⟨((hplaced d' hahead).patched (hmakes.patched d' hahead)).2 e hfailed, hfailed⟩
    | ok _ =>
      refine ⟨fun x => if x = l ++ (names ++ [n]) then some (.file c) else patch x,
        fun x v hv => ?_, nofun, fun d' hahead => ?_⟩
      · dsimp only at hv
        split at hv
        · rename_i hx
          refine Or.inl ⟨hx, ⟨c, (Option.some.inj hv).symm⟩, fun hdir => ?_⟩
          refine (hplaced d (Ahead.refl hvacant)).free hreplaced ?_
          rw [← hx]
          exact (grown_makeFolders d target).directory hdir
        · exact hfits x v hv
      · have hdone := (hresult d' hahead).trans hreplaced
        exact ⟨((hplaced d' hahead).patched (hmakes.patched d' hahead)).1 hdone, hdone⟩

/-- A file is read with the same contents, or not at all, on a disk that is ahead. -/
theorem Ahead.toOption_read (hahead : Ahead l (names ++ [n]) temporary d d') :
    (d'.read target).toOption = (d.read target).toOption := by
  have hplace : d.place target = l ++ (names ++ [n]) := place_of_steps hsteps hnames hbase
  cases hnode : d.node? (l ++ (names ++ [n])) with
  | none =>
    have hnone : ∀ d' : Disk, d'.node? (d'.place target) = none →
        (d'.read target).toOption = none := fun d' h =>
      Option.eq_none_iff_forall_ne_some.2 fun c hc => by
        rw [toOption_eq_some_iff, read_eq_ok_iff, h] at hc
        exact nomatch hc.2
    rw [hnone d (by rw [hplace, hnode]),
      hnone d' (by rw [place_congr hahead.current, hplace, hahead.target, hnode])]
  | some v =>
    refine congrArg Except.toOption (read_congr hahead.current (agree_on_route hsteps hnames
      hbase (reach_of_directories hbase hahead.directory) (fun passed hpassed => ?_)
      hahead.target))
    have hdir : d.node? (l ++ passed) = some .directory := by
      obtain ⟨more, rfl⟩ := hpassed
      have hsome : (d.node? (l ++ passed ++ (more ++ [n]))).isSome := by
        rw [List.append_assoc, ← List.append_assoc passed, hnode]
        rfl
      exact directory_of_append hsome
        (List.append_ne_nil_of_right_ne_nil more (List.cons_ne_nil n []))
    exact ⟨hdir, hahead.directory _ hdir⟩

end Replace

end Disk

end Folio
