import Folio.Proofs.Disk.Route
import Folio.Proofs.Path.Steps

/-!
# Arriving at a directory

The steps of a path lead to its place (`Disk.place_eq_foldl_steps`). Going through them a
directory is reached, or there is a reason why not (`Disk.reach`); this is how a directory
is found (`Disk.isDirectory_iff_reach`), and how the directory is found that holds the last
name of a path (`Disk.holder?_of_splitOn`).
-/

namespace Folio

namespace Disk

variable {d d' : Disk} {p : Path} {l m : Location} {parts base names : List Text} {n : Text}

/-! ## Steps that lead to a place -/

/-- Parts that lead nowhere make no difference to where others lead. -/
theorem foldl_advance_filter (parts : List Text) (l : Location) :
    (parts.filter fun part => !Path.isVoid part).foldl Location.advance l =
      parts.foldl Location.advance l := by
  induction parts generalizing l with
  | nil => rfl
  | cons part rest ih =>
    by_cases hvoid : Path.isVoid part
    · rw [List.filter_cons_of_neg (by simpa using hvoid), ih, List.foldl_cons, Location.advance,
        if_pos hvoid]
    · rw [List.filter_cons_of_pos (by simpa using hvoid), List.foldl_cons, List.foldl_cons, ih]

/-- The place of a path is where its steps lead. -/
theorem place_eq_foldl_steps (d : Disk) (p : Path) :
    d.place p = p.steps.foldl Location.advance (d.origin p) :=
  (foldl_advance_filter _ _).symm

theorem exists_step_of_mem_route {x : Location} (h : x ∈ d.route p) :
    ∃ passed, passed <+: p.steps ∧ passed.foldl Location.advance (d.origin p) = x := by
  obtain ⟨passed, hpassed, rfl⟩ := mem_route.1 h
  refine ⟨passed.filter fun part => !Path.isVoid part, hpassed.filter _, ?_⟩
  exact foldl_advance_filter passed _

/-! ## Arriving at a directory -/

/-- Goes through parts and arrives at a directory. -/
def reach (d : Disk) (l : Location) : List Text → Except SystemError Location
  | [] => if d.node? l = some .directory then .ok l else .error .notDirectory
  | part :: rest => d.step l part >>= fun m => d.reach m rest

theorem reach_eq_foldlM (d : Disk) (l : Location) (parts : List Text) : d.reach l parts =
    parts.foldlM d.step l >>= fun m =>
      if d.node? m = some .directory then .ok m else .error .notDirectory := by
  induction parts generalizing l with
  | nil => rfl
  | cons part rest ih =>
    rw [reach, List.foldlM_cons, bind_assoc]
    exact congrArg _ (funext ih)

theorem reach_eq_ok_iff : d.reach l parts = .ok m ↔
    parts.foldlM d.step l = .ok m ∧ d.node? m = some .directory := by
  rw [reach_eq_foldlM, bind_eq_ok_iff]
  constructor
  · rintro ⟨m', hm', h⟩
    split at h
    · rename_i hdir
      cases h
      exact ⟨hm', hdir⟩
    · cases h
  · rintro ⟨hm, hdir⟩
    exact ⟨m, hm, if_pos hdir⟩

/-- From what is no directory nothing is reached. -/
theorem reach_of_not_directory (h : d.node? l ≠ some .directory) (parts : List Text) :
    d.reach l parts = .error .notDirectory := by
  cases parts with
  | nil => exact if_neg h
  | cons part rest =>
    rw [reach, step, if_pos h]
    rfl

theorem reach_append (d : Disk) (l : Location) (parts more : List Text) :
    d.reach l (parts ++ more) = d.reach l parts >>= fun m => d.reach m more := by
  induction parts generalizing l with
  | nil =>
    by_cases hl : d.node? l = some .directory
    · rw [List.nil_append, reach.eq_1, if_pos hl]
      rfl
    · rw [List.nil_append, reach_of_not_directory hl, reach_of_not_directory hl]
      rfl
  | cons part rest ih =>
    rw [List.cons_append, reach, reach, bind_assoc]
    exact congrArg _ (funext ih)

/-- Parts that lead nowhere make no difference to what is reached. -/
theorem reach_filter (d : Disk) (l : Location) (parts : List Text) :
    d.reach l (parts.filter fun part => !Path.isVoid part) = d.reach l parts := by
  induction parts generalizing l with
  | nil => rfl
  | cons part rest ih =>
    by_cases hvoid : Path.isVoid part
    · rw [List.filter_cons_of_neg (by simpa using hvoid), ih]
      by_cases hl : d.node? l = some .directory
      · rw [reach, step, if_neg (not_not.2 hl), if_pos hvoid]
        rfl
      · rw [reach_of_not_directory hl, reach_of_not_directory hl]
    · rw [List.filter_cons_of_pos (by simpa using hvoid), reach, reach]
      exact congrArg _ (funext ih)

theorem reach_of_directories (h : d.reach l parts = .ok m)
    (hdirs : ∀ x, d.node? x = some .directory → d'.node? x = some .directory) :
    d'.reach l parts = .ok m := by
  obtain ⟨hfold, hdir⟩ := reach_eq_ok_iff.1 h
  have hdir' := hdirs m hdir
  exact reach_eq_ok_iff.2 ⟨foldlM_step_of_directories hfold hdirs (by rw [hdir']; rfl), hdir'⟩

/-- A directory is found at a path if its steps reach it. -/
theorem isDirectory_iff_reach (h : IsUsable p) :
    d.isDirectory p ↔ d.reach (d.origin p) p.steps = .ok (d.place p) := by
  rw [isDirectory_iff, find?_eq_ok_iff, and_iff_right h, Path.steps, reach_filter,
    reach_eq_ok_iff]
  rfl

theorem isDirectory_of_reach (h : IsUsable p) (hreach : d.reach (d.origin p) p.steps = .ok l) :
    d.isDirectory p := by
  refine (isDirectory_iff_reach h).2 ?_
  rw [hreach]
  rw [Path.steps, reach_filter] at hreach
  exact congrArg _ (foldlM_step_eq_ok (reach_eq_ok_iff.1 hreach).1)

theorem holder?_of_start? {before : List Text} (h : d.start? p = .ok (l, before ++ [n]))
    (hvoid : ¬Path.isVoid n) (hup : n ≠ ['.', '.']) :
    d.holder? p = d.reach l before >>= fun folder =>
      if nameLimit < n.size then .error .nameTooLong else .ok (folder, .name n false) := by
  obtain ⟨hnil, hdot⟩ : n ≠ [] ∧ n ≠ ['.'] := by simpa [Path.isVoid] using hvoid
  have hempty : n.isEmpty = false := by simpa using hnil
  have hreverse : (before ++ [n]).reverse = n :: before.reverse := List.reverse_append
  have hbind : ∀ {α : Type} (f : Location × List Text → Except SystemError α),
      (Except.ok (l, before ++ [n]) : Except SystemError _) >>= f = f (l, before ++ [n]) :=
    fun _ => rfl
  unfold holder?
  rw [h, reach_eq_foldlM, bind_assoc, hbind]
  dsimp only
  rw [hreverse, List.dropWhile_cons_of_neg (by rw [hempty]; exact Bool.false_ne_true),
    List.takeWhile_cons_of_neg (by rw [hempty]; exact Bool.false_ne_true)]
  dsimp only
  rw [List.reverse_reverse]
  refine congrArg _ (funext fun folder => ?_)
  by_cases hdir : d.node? folder = some .directory
  · rw [if_neg (not_not.2 hdir), if_pos hdir, if_neg (by simp [hdot, hup])]
    rfl
  · rw [if_pos hdir, if_neg hdir]
    rfl

/-- A path that ends in a name is followed as far as that name. -/
theorem holder?_of_splitOn {before : List Text} (h : IsUsable p)
    (hsplit : p.text.splitOn '/' = before ++ [n]) (hvoid : ¬Path.isVoid n)
    (hup : n ≠ ['.', '.']) : d.holder? p = d.reach (d.origin p) before >>= fun folder =>
      if nameLimit < n.size then .error .nameTooLong else .ok (folder, .name n false) := by
  by_cases habs : p.isAbsolute
  · -- The part in front of the first slash leads nowhere.
    obtain ⟨rest, hrest⟩ := Path.isAbsolute_iff.1 habs
    obtain ⟨first, rfl, hfirst⟩ :
        ∃ first, before = [] :: first ∧ rest.splitOn '/' = first ++ [n] := by
      rw [hrest, List.splitOn_cons_eq_if_modifyHead, if_pos (beq_self_eq_true '/')] at hsplit
      cases before with
      | nil =>
        obtain rfl := List.head_eq_of_cons_eq hsplit
        exact absurd rfl hvoid
      | cons part first =>
        obtain ⟨rfl, htail⟩ := List.cons.inj hsplit
        exact ⟨first, rfl, htail⟩
    have hstart : d.start? p = .ok ([], first ++ [n]) := by
      rw [start?_eq_ok_iff, if_pos habs, hrest, ← hfirst]
      exact ⟨h, rfl⟩
    rw [holder?_of_start? hstart hvoid hup, origin, if_pos habs]
    rfl
  · have hstart : d.start? p = .ok (d.current, before ++ [n]) := by
      rw [start?_eq_ok_iff, if_neg habs, hsplit]
      exact ⟨h, rfl⟩
    rw [holder?_of_start? hstart hvoid hup, origin, if_neg habs]

/-- What a path stands for that leads to something is looked up in a directory. -/
theorem exists_holder?_of_find? (h : d.find? p = .ok l) : ∃ folder last, d.holder? p =
    .ok (folder, last) := by
  obtain ⟨⟨start, parts⟩, hstart, hfold⟩ := bind_eq_ok_iff.1 h
  unfold holder?
  rw [hstart]
  dsimp only [bind, Except.bind]
  cases hlast : parts.reverse.dropWhile List.isEmpty with
  | nil => exact ⟨_, _, rfl⟩
  | cons last before =>
    rw [(eq_append_of_dropWhile_reverse hlast).2] at hfold
    dsimp only at hfold
    rw [List.foldlM_append] at hfold
    obtain ⟨folder, hfolder, hrest⟩ := bind_eq_ok_iff.1 hfold
    obtain ⟨mid, hstep, -⟩ := bind_eq_ok_iff.1 hrest
    obtain ⟨hdir, hsize, -⟩ := step_eq_ok_iff.1 hstep
    dsimp only
    rw [hfolder]
    show ∃ folder' last', (if d.node? folder ≠ some .directory then _ else _) =
      Except.ok (folder', last')
    rw [if_neg (not_not.2 hdir)]
    split
    · exact ⟨_, _, rfl⟩
    · rw [if_neg (Nat.not_lt.2 hsize)]
      exact ⟨_, _, rfl⟩

/-! ## Names -/

/-- A step to a name. -/
theorem step_of_isName (hl : d.node? l = some .directory) (hn : n.IsName) : d.step l n =
    if nameLimit < n.size then .error .nameTooLong
    else if (d.node? (l ++ [n])).isNone then .error .noEntry
    else .ok (l ++ [n]) := by
  rw [step, if_neg (not_not.2 hl), if_neg hn.1, if_neg hn.2.1]

theorem reach_of_prefixes (hnames : ∀ n ∈ names, n.IsName)
    (hsize : ∀ n ∈ names, n.size ≤ nameLimit)
    (h : ∀ passed, passed <+: names → d.node? (l ++ passed) = some .directory) :
    d.reach l names = .ok (l ++ names) := by
  induction names generalizing l with
  | nil =>
    have hl := h [] List.nil_prefix
    rw [List.append_nil] at hl ⊢
    exact if_pos hl
  | cons n rest ih =>
    have hl := h [] List.nil_prefix
    rw [List.append_nil] at hl
    have hnext := h [n] ⟨rest, rfl⟩
    have hstep : d.step l n = .ok (l ++ [n]) := by
      rw [step_of_isName hl (hnames n List.mem_cons_self),
        if_neg (Nat.not_lt.2 (hsize n List.mem_cons_self)), hnext]
      rfl
    rw [reach, hstep, List.append_cons l n rest]
    show d.reach (l ++ [n]) rest = .ok (l ++ [n] ++ rest)
    refine ih (fun n hn => hnames n (List.mem_cons_of_mem _ hn))
      (fun n hn => hsize n (List.mem_cons_of_mem _ hn)) fun passed hpassed => ?_
    rw [List.append_assoc]
    exact h (n :: passed) (List.cons_prefix_cons.2 ⟨rfl, hpassed⟩)

/-- All that is passed on the way to a directory are directories. -/
theorem directory_of_reach (hnames : ∀ n ∈ names, n.IsName) (h : d.reach l names = .ok m)
    {passed : List Text} (hpassed : passed <+: names) :
    d.node? (l ++ passed) = some .directory := by
  obtain ⟨rest, rfl⟩ := hpassed
  rw [reach_append] at h
  obtain ⟨mid, hmid, -⟩ := bind_eq_ok_iff.1 h
  obtain ⟨hfold, hdir⟩ := reach_eq_ok_iff.1 hmid
  rwa [foldlM_step_eq_ok hfold, Location.foldl_advance_of_isName
    fun n hn => hnames n (List.mem_append_left _ hn)] at hdir

/-- What is passed on the way to what can be reached are directories. -/
theorem directory_of_reach_append {start : Location} {passed more : List Text}
    (h : d.reach start (passed ++ more) = .ok l) :
    d.node? (passed.foldl Location.advance start) = some .directory := by
  rw [reach_append] at h
  obtain ⟨m, hm, -⟩ := bind_eq_ok_iff.1 h
  obtain ⟨hfold, hdir⟩ := reach_eq_ok_iff.1 hm
  rwa [← foldlM_step_eq_ok hfold]

/-- All of the route of a path are directories if the path reaches one. -/
theorem directory_of_mem_route (h : d.reach (d.origin p) p.steps = .ok l) {x : Location}
    (hx : x ∈ d.route p) : d.node? x = some .directory := by
  obtain ⟨passed, ⟨more, hmore⟩, rfl⟩ := exists_step_of_mem_route hx
  rw [← hmore] at h
  exact directory_of_reach_append h

/-- All of the route of a path but its last step are directories if these are on all of the
way. -/
theorem last_or_directory_of_mem_route (hsteps : p.steps = base ++ (names ++ [n]))
    (hnames : ∀ part ∈ names ++ [n], part.IsName) (hbase : d'.reach (d.origin p) base = .ok l)
    (hway : ∀ passed, passed <+: names → d'.node? (l ++ passed) = some .directory)
    {x : Location} (hx : x ∈ d.route p) :
    x = l ++ (names ++ [n]) ∨ d'.node? x = some .directory := by
  obtain ⟨passed, hpassed, rfl⟩ := exists_step_of_mem_route hx
  rw [hsteps] at hpassed
  rcases List.prefix_or_prefix_of_prefix hpassed (List.prefix_append base _) with
    ⟨more, rfl⟩ | ⟨further, rfl⟩
  · exact Or.inr (directory_of_reach_append hbase)
  · have hfurther := (List.prefix_append_right_inj base).1 hpassed
    rw [List.foldl_append, ← foldlM_step_eq_ok (reach_eq_ok_iff.1 hbase).1,
      Location.foldl_advance_of_isName fun part hpart => hnames part (hfurther.subset hpart)]
    rcases List.prefix_concat_iff.1 hfurther with rfl | hfurther
    · exact Or.inl rfl
    · exact Or.inr (hway further hfurther)

/-- Disks agree on the route of a path if they agree on the last step and have directories
on all of the way. -/
theorem agree_on_route (hsteps : p.steps = base ++ (names ++ [n]))
    (hnames : ∀ part ∈ names ++ [n], part.IsName)
    (hbase : d.reach (d.origin p) base = .ok l) (hbase' : d'.reach (d.origin p) base = .ok l)
    (hway : ∀ passed, passed <+: names → d.node? (l ++ passed) = some .directory ∧
      d'.node? (l ++ passed) = some .directory)
    (hlast : d'.node? (l ++ (names ++ [n])) = d.node? (l ++ (names ++ [n]))) :
    ∀ x ∈ d.route p, d'.node? x = d.node? x := by
  intro x hx
  rcases last_or_directory_of_mem_route hsteps hnames hbase (fun _ h => (hway _ h).1) hx with
    rfl | hdir
  · exact hlast
  · rcases last_or_directory_of_mem_route hsteps hnames hbase' (fun _ h => (hway _ h).2) hx with
      rfl | hdir'
    · exact hlast
    · rw [hdir, hdir']

theorem place_of_steps (hsteps : p.steps = base ++ names) (hnames : ∀ part ∈ names, part.IsName)
    (hbase : d.reach (d.origin p) base = .ok l) : d.place p = l ++ names := by
  rw [place_eq_foldl_steps, hsteps, List.foldl_append,
    ← foldlM_step_eq_ok (reach_eq_ok_iff.1 hbase).1, Location.foldl_advance_of_isName hnames]

end Disk

end Folio
