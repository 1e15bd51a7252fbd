import Folio.Proofs.Disk.Folders

/-!
# How far directories are made

Below a directory that is there already `Disk.makeDirectories` goes down name by name until
a file or a name that is too long is in its way : `Disk.headway`. It makes what is missing
so far, and fails if it was stopped (`Disk.headed_makeUpTo`). Directories that somebody else
has made in the meantime make no difference to that (`Disk.headway_congr`).
-/

namespace Folio

namespace Disk

variable {d d' : Disk} {p : Path} {l m : Location} {names : List Text} {n : Text}
  {places : Location → Prop}

/-! ## Going down by names -/

/-- How a path goes on behind an error : what stands in the way of its last name stands in
the way of a directory. -/
def asFolder (e : SystemError) : SystemError :=
  if e = .entryExists then .notDirectory else e

/-- How far down directories stand or can be made under some names, and what is in the way
of the next one. -/
def headway (d : Disk) (l : Location) : List Text → List Text × Option SystemError
  | [] => ([], none)
  | n :: rest =>
    if nameLimit < n.size then ([], some .nameTooLong)
    else
      match d.node? (l ++ [n]) with
      | some (.file _) => ([], some (if rest = [] then .entryExists else .notDirectory))
      | _ => (n :: (d.headway (l ++ [n]) rest).1, (d.headway (l ++ [n]) rest).2)

/-- Only files are in the way. -/
theorem headway_congr (h : ∀ passed, passed <+: names → ∀ c,
    d'.node? (l ++ passed) = some (.file c) ↔ d.node? (l ++ passed) = some (.file c)) :
    d'.headway l names = d.headway l names := by
  induction names generalizing l with
  | nil => rfl
  | cons n rest ih =>
    have hfile := h [n] ⟨rest, rfl⟩
    have hrest : d'.headway (l ++ [n]) rest = d.headway (l ++ [n]) rest := by
      refine ih fun passed hpassed => ?_
      rw [List.append_assoc]
      exact h (n :: passed) (List.cons_prefix_cons.2 ⟨rfl, hpassed⟩)
    simp only [headway, hrest]
    split
    · rfl
    · cases hnode : d.node? (l ++ [n]) with
      | some v =>
        cases v with
        | file c => rw [(hfile c).2 hnode]
        | directory =>
          split
          · rename_i c hc
            rw [hfile, hnode] at hc
            cases hc
          · rfl
      | none =>
        split
        · rename_i c hc
          rw [hfile, hnode] at hc
          cases hc
        · rfl

theorem headway_cons_of_open (hsize : n.size ≤ nameLimit)
    (hopen : ∀ c, d.node? (l ++ [n]) ≠ some (.file c)) (rest : List Text) :
    d.headway l (n :: rest) =
      (n :: (d.headway (l ++ [n]) rest).1, (d.headway (l ++ [n]) rest).2) := by
  rw [headway, if_neg (Nat.not_lt.2 hsize)]
  split
  · rename_i c hc
    exact absurd hc (hopen c)
  · rfl

/-- Where all names can be gone down the first one is neither too long nor that of a
file. -/
theorem headway_cons_eq_none {rest : List Text} (h : (d.headway l (n :: rest)).2 = none) :
    n.size ≤ nameLimit ∧ (∀ c, d.node? (l ++ [n]) ≠ some (.file c)) ∧
      (d.headway (l ++ [n]) rest).2 = none := by
  rw [headway] at h
  split at h
  · cases h
  rename_i hsize
  split at h
  · cases h
  · rename_i hopen
    exact ⟨Nat.le_of_not_lt hsize, fun c hc => hopen c hc, h⟩

theorem prefix_headway (d : Disk) (l : Location) (names : List Text) :
    (d.headway l names).1 <+: names := by
  induction names generalizing l with
  | nil => exact List.prefix_refl _
  | cons n rest ih =>
    rw [headway]
    split
    · exact List.nil_prefix
    split
    · exact List.nil_prefix
    · exact List.cons_prefix_cons.2 ⟨rfl, ih _⟩

theorem headway_fst_of_none (h : (d.headway l names).2 = none) :
    (d.headway l names).1 = names := by
  induction names generalizing l with
  | nil => rfl
  | cons n rest ih =>
    obtain ⟨hsize, hopen, hrest⟩ := headway_cons_eq_none h
    rw [headway_cons_of_open hsize hopen, ih hrest]

theorem size_le_of_headway (h : (d.headway l names).2 = none) :
    ∀ n ∈ names, n.size ≤ nameLimit := by
  induction names generalizing l with
  | nil => exact nofun
  | cons n rest ih =>
    obtain ⟨hsize, -, hrest⟩ := headway_cons_eq_none h
    exact List.forall_mem_cons.2 ⟨hsize, ih hrest⟩

/-- Where all names can be gone down, one name more is all that matters. -/
theorem headway_concat_of_none (h : (d.headway l names).2 = none) :
    d.headway l (names ++ [n]) =
      if nameLimit < n.size then (names, some .nameTooLong)
      else
        match d.node? (l ++ names ++ [n]) with
        | some (.file _) => (names, some .entryExists)
        | _ => (names ++ [n], none) := by
  induction names generalizing l with
  | nil =>
    rw [List.append_nil]
    rfl
  | cons m rest ih =>
    obtain ⟨hsize, hopen, hrest⟩ := headway_cons_eq_none h
    have hplace : l ++ [m] ++ rest ++ [n] = l ++ m :: rest ++ [n] := by
      rw [List.append_cons l m rest]
    rw [List.cons_append, headway_cons_of_open hsize hopen, ih hrest, hplace]
    split
    · rfl
    · split <;> rfl

theorem headway_concat_of_some {e : SystemError} (h : (d.headway l names).2 = some e) :
    d.headway l (names ++ [n]) = ((d.headway l names).1, some (asFolder e)) := by
  induction names generalizing l with
  | nil => cases h
  | cons m rest ih =>
    simp only [headway, List.cons_append] at h ⊢
    split at h
    · rename_i hsize
      cases h
      rw [if_pos hsize, if_pos hsize]
      rfl
    · rename_i hsize
      rw [if_neg hsize, if_neg hsize]
      split at h
      · rename_i c hc
        cases h
        rw [if_neg (List.append_ne_nil_of_right_ne_nil rest (List.cons_ne_nil n []))]
        refine congrArg (Prod.mk []) (congrArg some ?_)
        split <;> rfl
      · rw [ih h]

/-- Where nothing stands no file is in the way. -/
theorem headway_ne_entryExists (h : d.node? l ≠ some .directory) :
    (d.headway l names).2 ≠ some .entryExists := by
  induction names generalizing l with
  | nil => exact nofun
  | cons n rest ih =>
    have hnone : d.node? (l ++ [n]) = none := by
      cases hnode : d.node? (l ++ [n]) with
      | none => rfl
      | some v => exact absurd (d.rooted l n (Option.isSome_of_mem hnode)) h
    simp only [headway, hnone]
    split
    · exact nofun
    · exact ih (by rw [hnone]; exact nofun)

/-- What going down by names comes to, told from how the way to a directory there ends : it
is reached, something is missing, or what is in the way keeps new directories from being
made too. -/
theorem headway_of_reach (hl : d.node? l = some .directory) (hnames : ∀ n ∈ names, n.IsName) :
    (∀ m, d.reach l names = .ok m → (d.headway l names).2 = none) ∧
    (d.reach l names = .error .noEntry → (d.headway l names).2 ≠ some .entryExists) ∧
    ∀ e, e ≠ .noEntry → d.reach l names = .error e →
      (d.headway l names).2.map asFolder = some e ∧
        ∀ passed, passed <+: (d.headway l names).1 → d.node? (l ++ passed) = some .directory := by
  induction names generalizing l with
  | nil =>
    rw [reach, if_pos hl]
    refine ⟨fun _ _ => rfl, fun h => ?_, fun _ _ h => ?_⟩ <;> cases h
  | cons n rest ih =>
    obtain ⟨hn, hrest⟩ := List.forall_mem_cons.1 hnames
    have hnil : ∀ passed, passed <+: ([] : List Text) →
        d.node? (l ++ passed) = some .directory := by
      intro passed hpassed
      rw [List.prefix_nil.1 hpassed, List.append_nil, hl]
    have hreach : d.reach l (n :: rest) = d.step l n >>= fun m => d.reach m rest := rfl
    rw [hreach, step_of_isName hl hn]
    by_cases hsize : nameLimit < n.size
    · rw [headway, if_pos hsize, if_pos hsize]
      refine ⟨fun _ h => ?_, fun h => ?_, fun e _ h => ?_⟩ <;> cases h
      exact ⟨rfl, hnil⟩
    have hle := Nat.le_of_not_lt hsize
    rw [if_neg hsize]
    cases hnode : d.node? (l ++ [n]) with
    | none =>
      rw [headway_cons_of_open hle (by simp [hnode])]
      refine ⟨fun _ h => ?_, fun _ => headway_ne_entryExists (by simp [hnode]),
        fun e hne h => ?_⟩ <;> cases h
      exact absurd rfl hne
    | some v =>
      rw [Option.isNone_some, if_neg Bool.false_ne_true]
      show (∀ m, d.reach (l ++ [n]) rest = .ok m → _) ∧
        (d.reach (l ++ [n]) rest = .error .noEntry → _) ∧
        ∀ e, e ≠ .noEntry → d.reach (l ++ [n]) rest = .error e → _
      cases v with
      | file c =>
        rw [reach_of_not_directory (by simp [hnode]), headway, if_neg hsize, hnode]
        refine ⟨fun _ h => ?_, fun h => ?_, fun e _ h => ?_⟩ <;> cases h
        refine ⟨?_, hnil⟩
        dsimp only
        split <;> rfl
      | directory =>
        obtain ⟨hreached, hmissing, hstopped⟩ := ih hnode hrest
        rw [headway_cons_of_open hle (by simp [hnode])]
        refine ⟨hreached, hmissing, fun e hne he => ?_⟩
        obtain ⟨hstop, hdirs⟩ := hstopped e hne he
        refine ⟨hstop, fun passed hpassed => ?_⟩
        cases passed with
        | nil => rw [List.append_nil, hl]
        | cons m more =>
          obtain ⟨rfl, hmore⟩ := List.cons_prefix_cons.1 hpassed
          rw [List.append_cons]
          exact hdirs more hmore

/-! ## Making all that is missing -/

/-- What making directories comes to that goes down some names from a location as far as
`way` says : the directories that it leaves, and its result. -/
structure Headed (l : Location) (way : List Text × Option SystemError) (d : Disk)
    (made : Disk × Except SystemError Unit) : Prop where
  current : made.1.current = d.current
  node : ∀ x, made.1.node? x = if x ∈ way.1.inits.map (l ++ ·) then some .directory else d.node? x
  result : made.2 = way.2.elim (.ok ()) .error

theorem mem_map_inits {x : Location} : x ∈ names.inits.map (l ++ ·) ↔
    ∃ passed, passed <+: names ∧ l ++ passed = x := by
  simp only [List.mem_map, List.mem_inits]

/-- What makes no directory leaves those that are passed. -/
theorem Headed.of_directories {way : List Text × Option SystemError}
    (h : ∀ passed, passed <+: way.1 → d.node? (l ++ passed) = some .directory) :
    Headed l way d (d, way.2.elim (.ok ()) .error) := by
  refine ⟨rfl, fun x => ?_, rfl⟩
  split
  · rename_i hx
    obtain ⟨passed, hpassed, rfl⟩ := mem_map_inits.1 hx
    exact h passed hpassed
  · rfl

section Ensure

variable {before : List Text} {folder : Location}

/-- Where a path that is trimmed makes a directory. -/
theorem makeDirectory_of_trimmed (husable : IsUsable p) (htrimmed : p.Trimmed)
    (hsteps : p.steps = before ++ [n]) (hn : n.IsName) : d.makeDirectory p =
      d.reach (d.origin p) before >>= fun folder =>
        if nameLimit < n.size then .error .nameTooLong
        else if (d.node? (folder ++ [n])).isSome then .error .entryExists
        else d.putAt folder n .directory := by
  obtain ⟨parts, hsplit, rfl⟩ := htrimmed.exists_splitOn hsteps
  rw [makeDirectory, holder?_of_splitOn husable hsplit hn.1 hn.2.1, bind_assoc, reach_filter]
  refine congrArg _ (funext fun folder => ?_)
  by_cases hsize : nameLimit < n.size
  · rw [if_pos hsize, if_pos hsize]
    rfl
  · rw [if_neg hsize, if_neg hsize]
    rfl

variable (husable : IsUsable p) (htrimmed : p.Trimmed) (hsteps : p.steps = before ++ [n])
  (hn : n.IsName)
include husable htrimmed hsteps hn

/-- A directory that cannot be reached is not made. -/
theorem ensureDirectory_of_reach_eq_error {e : SystemError}
    (h : d.reach (d.origin p) before = .error e) : d.ensureDirectory p = (d, .error e) := by
  have hmake : d.makeDirectory p = .error e := by
    rw [makeDirectory_of_trimmed husable htrimmed hsteps hn, h]
    rfl
  have hmissing : ¬d.isDirectory p := by
    rw [isDirectory_iff_reach husable, hsteps, reach_append, h]
    exact nofun
  rw [ensureDirectory, hmake]
  exact if_neg hmissing

/-- A directory is made in one that is reached if its name is short enough and no file has
that name. -/
theorem ensureDirectory_of_reach (h : d.reach (d.origin p) before = .ok folder) :
    (nameLimit < n.size → d.ensureDirectory p = (d, .error .nameTooLong)) ∧
    (n.size ≤ nameLimit → ∀ c, d.node? (folder ++ [n]) = some (.file c) →
      d.ensureDirectory p = (d, .error .entryExists)) ∧
    (n.size ≤ nameLimit → (∀ c, d.node? (folder ++ [n]) ≠ some (.file c)) →
      (d.ensureDirectory p).2 = .ok () ∧ (d.ensureDirectory p).1.current = d.current ∧
      ∀ x, (d.ensureDirectory p).1.node? x =
        if x = folder ++ [n] then some .directory else d.node? x) := by
  have hfolder : d.node? folder = some .directory := (reach_eq_ok_iff.1 h).2
  have hmake := makeDirectory_of_trimmed (d := d) husable htrimmed hsteps hn
  rw [h] at hmake
  have hdirectory : d.isDirectory p ↔ d.reach folder [n] = .ok (d.place p) := by
    rw [isDirectory_iff_reach husable, hsteps, reach_append, h]
    rfl
  have hreach : d.reach folder [n] = d.step folder n >>= fun m => d.reach m [] := rfl
  rw [hreach, step_of_isName hfolder hn] at hdirectory
  refine ⟨fun hsize => ?_, fun hsize c hc => ?_, fun hsize hopen => ?_⟩
  · rw [if_pos hsize] at hdirectory
    have hfail : d.makeDirectory p = .error .nameTooLong := hmake.trans (if_pos hsize)
    rw [ensureDirectory, hfail]
    refine if_neg fun h => ?_
    cases hdirectory.1 h
  · rw [if_neg (Nat.not_lt.2 hsize), hc] at hdirectory
    have hfail : d.makeDirectory p = .error .entryExists :=
      hmake.trans ((if_neg (Nat.not_lt.2 hsize)).trans (if_pos (by rw [hc]; rfl)))
    have hnone : d.reach (folder ++ [n]) [] = .error .notDirectory :=
      reach_of_not_directory (by simp [hc]) []
    rw [ensureDirectory, hfail]
    refine if_neg fun h => ?_
    have hsome : d.reach (folder ++ [n]) [] = .ok (d.place p) := hdirectory.1 h
    rw [hnone] at hsome
    cases hsome
  · replace hmake := hmake.trans (if_neg (Nat.not_lt.2 hsize))
    cases hnode : d.node? (folder ++ [n]) with
    | some v =>
      cases v with
      | file c => exact absurd hnode (hopen c)
      | directory =>
        have hfail : d.makeDirectory p = .error .entryExists :=
          hmake.trans (if_pos (by rw [hnode]; rfl))
        have hthere : d.isDirectory p := by
          refine isDirectory_of_reach husable (l := folder ++ [n]) ?_
          rw [hsteps, reach_append, h]
          show d.step folder n >>= _ = _
          rw [step_of_isName hfolder hn, if_neg (Nat.not_lt.2 hsize), hnode]
          exact if_pos hnode
        have hensure : d.ensureDirectory p = (d, .ok ()) := by
          rw [ensureDirectory, hfail]
          exact if_pos hthere
        rw [hensure]
        refine ⟨rfl, rfl, fun x => ?_⟩
        split
        · rename_i hx
          rw [hx, hnode]
        · rfl
    | none =>
      have hfree : d.node? (folder ++ [n]) ≠ some .directory := by simp [hnode]
      have hput : d.putAt folder n .directory = .ok (d.put folder n .directory hfolder hfree) := by
        rw [putAt, dif_pos hfolder, dif_pos hfree]
      have hmade : d.makeDirectory p = .ok (d.put folder n .directory hfolder hfree) :=
        hmake.trans ((if_neg (by rw [hnode]; exact Bool.false_ne_true)).trans hput)
      rw [ensureDirectory, hmade]
      exact ⟨rfl, rfl, node?_put hfolder hfree⟩

end Ensure

/-- One name more below directories that are all there. -/
theorem headed_ensureDirectory {base : List Text} (husable : IsUsable p)
    (htrimmed : p.Trimmed) (hsteps : p.steps = base ++ (names ++ [n]))
    (hbase : d.reach (d.origin p) base = .ok l) (hnames : ∀ part ∈ names ++ [n], part.IsName)
    (hreach : d.reach l names = .ok m) :
    Headed l (d.headway l (names ++ [n])) d (d.ensureDirectory p) := by
  have hn : n.IsName := hnames n (List.mem_append_right _ List.mem_cons_self)
  have hnames' : ∀ n ∈ names, n.IsName := fun n hn => hnames n (List.mem_append_left _ hn)
  have hl : d.node? l = some .directory := (reach_eq_ok_iff.1 hbase).2
  have hdirs : ∀ passed, passed <+: names → d.node? (l ++ passed) = some .directory :=
    fun _ => directory_of_reach hnames' hreach
  obtain rfl : m = l ++ names := by
    rw [foldlM_step_eq_ok (reach_eq_ok_iff.1 hreach).1, Location.foldl_advance_of_isName hnames']
  have hfolder : d.reach (d.origin p) (base ++ names) = .ok (l ++ names) := by
    rw [reach_append, hbase]
    exact hreach
  obtain ⟨hlong, hfile, hmade⟩ := ensureDirectory_of_reach husable htrimmed
    (hsteps.trans (List.append_assoc _ _ _).symm) hn hfolder
  rw [headway_concat_of_none ((headway_of_reach hl hnames').1 _ hreach)]
  by_cases hsize : nameLimit < n.size
  · rw [if_pos hsize, hlong hsize]
    exact Headed.of_directories hdirs
  have hle := Nat.le_of_not_lt hsize
  rw [if_neg hsize]
  split
  · rename_i c hc
    rw [hfile hle c hc]
    exact Headed.of_directories hdirs
  · rename_i hopen
    obtain ⟨hresult, hcurrent, hnode⟩ := hmade hle hopen
    refine ⟨hcurrent, fun x => ?_, hresult⟩
    rw [hnode]
    by_cases hx : x = l ++ names ++ [n]
    · rw [if_pos hx, if_pos]
      exact mem_map_inits.2 ⟨_, List.prefix_refl _, by rw [hx, List.append_assoc]⟩
    · rw [if_neg hx]
      split
      · rename_i hmem
        obtain ⟨passed, hpassed, rfl⟩ := mem_map_inits.1 hmem
        rcases List.prefix_concat_iff.1 hpassed with rfl | hpassed
        · exact absurd (List.append_assoc _ _ _).symm hx
        · exact hdirs passed hpassed
      · rfl

/-- Once the directories above are made, one name more makes the last one. -/
theorem Headed.headed_ensureDirectory {base : List Text} {result : Except SystemError Unit}
    (h : Headed l (d.headway l names) d (d', result)) (hgrown : Grown places d d')
    (hstop : (d.headway l names).2 = none) (husable : IsUsable p) (htrimmed : p.Trimmed)
    (hsteps : p.steps = base ++ (names ++ [n])) (hbase : d'.reach (d.origin p) base = .ok l)
    (hnames : ∀ part ∈ names ++ [n], part.IsName) :
    Headed l (d.headway l (names ++ [n])) d (d'.ensureDirectory p) := by
  have hnode := h.node
  rw [headway_fst_of_none hstop] at hnode
  have hreach : d'.reach l names = .ok (l ++ names) := by
    refine reach_of_prefixes (fun part hpart => hnames part (List.mem_append_left _ hpart))
      (size_le_of_headway hstop) fun passed hpassed => ?_
    rw [hnode, if_pos (mem_map_inits.2 ⟨passed, hpassed, rfl⟩)]
  have hsame : d'.headway l (names ++ [n]) = d.headway l (names ++ [n]) :=
    headway_congr fun _ _ _ => hgrown.file_iff
  rw [← origin_congr h.current] at hbase
  have hlast := Disk.headed_ensureDirectory husable htrimmed hsteps hbase hnames hreach
  rw [hsame] at hlast
  refine ⟨hlast.current.trans h.current, fun x => ?_, hlast.result⟩
  have hprefix : names <+: (d.headway l (names ++ [n])).1 := by
    rw [headway_concat_of_none hstop]
    split
    · exact List.prefix_refl _
    · split
      · exact List.prefix_refl _
      · exact List.prefix_append _ _
  rw [hlast.node, hnode]
  split
  · rfl
  · rename_i hx
    refine if_neg fun hmem => hx ?_
    obtain ⟨passed, hpassed, hplace⟩ := mem_map_inits.1 hmem
    exact mem_map_inits.2 ⟨passed, hpassed.trans hprefix, hplace⟩

/-- Making the directories of a path below one that is there : as far down as there is
nothing in the way. -/
theorem headed_makeUpTo {base : List Text} {above : Nat}
    (hbase : d.reach (d.origin p) base = .ok l) (hsteps : p.steps = base ++ names)
    (hnames : ∀ n ∈ names, n.IsName) (husable : p.text = [] ∨ IsUsable p) (htrimmed : p.Trimmed)
    (habove : names.length ≤ above) :
    Headed l (d.headway l names) d (d.makeUpTo p above) := by
  have hl : d.node? l = some .directory := (reach_eq_ok_iff.1 hbase).2
  induction names using List.reverseRecOn generalizing p above with
  | nil =>
    have hmade : d.makeUpTo p above = (d, .ok ()) := by
      rcases husable with hnil | husable
      · exact makeUpTo_of_text_eq_nil hnil above
      · refine makeUpTo_of_isDirectory (isDirectory_of_reach husable (l := l) ?_) above
        rw [hsteps, List.append_nil, hbase]
    have hdirs : ∀ passed, passed <+: (d.headway l []).1 →
        d.node? (l ++ passed) = some .directory := by
      intro passed hpassed
      rw [List.prefix_nil.1 hpassed, List.append_nil, hl]
    rw [hmade]
    exact Headed.of_directories hdirs
  | append_singleton names n ih =>
    have hnames' : ∀ n ∈ names, n.IsName := fun n hn => hnames n (List.mem_append_left _ hn)
    have hn : n.IsName := hnames n (List.mem_append_right _ List.mem_cons_self)
    have hsteps' : p.steps = base ++ names ++ [n] := hsteps.trans (List.append_assoc _ _ _).symm
    have hne : p.steps ≠ [] := by
      rw [hsteps']
      exact List.append_ne_nil_of_right_ne_nil _ (List.cons_ne_nil n [])
    have htext : p.text ≠ [] := by
      intro hnil
      rw [Path.steps, hnil] at hne
      exact hne rfl
    have husable := husable.resolve_left htext
    have hfolder : d.reach (d.origin p) (base ++ names) = d.reach l names := by
      rw [reach_append, hbase]
      rfl
    have hmake := makeDirectory_of_trimmed (d := d) husable htrimmed hsteps' hn
    rw [hfolder] at hmake
    obtain ⟨-, hmissing, hstopped⟩ := headway_of_reach hl hnames'
    cases hreach : d.reach l names with
    | ok m =>
      rw [makeUpTo_of_makeDirectory htext]
      · exact headed_ensureDirectory husable htrimmed hsteps hbase hnames hreach
      · intro hnone
        rw [hmake, hreach] at hnone
        dsimp only [bind, Except.bind] at hnone
        split at hnone
        · cases hnone
        split at hnone
        · cases hnone
        · exact putAt_ne_noEntry d _ _ _ hnone
    | error e =>
      rw [hreach] at hmake
      by_cases hmissed : e = .noEntry
      · subst hmissed
        obtain ⟨q, hq⟩ := Path.exists_parent?_of_steps hne
        have horigin : ∀ d : Disk, d.origin q = d.origin p := fun d => by
          rw [origin, origin, Path.isAbsolute_of_parent? hq]
        have hqsteps : q.steps = base ++ names := by
          rw [Path.steps_of_parent? hq, hsteps', List.dropLast_concat]
        obtain ⟨k, rfl⟩ : ∃ k, above = k + 1 := by
          rw [List.length_append, List.length_singleton] at habove
          exact ⟨above - 1, by omega⟩
        have hparent : Headed l (d.headway l names) d (d.makeUpTo q k) := by
          refine ih (by rw [horigin, hbase]) hqsteps hnames' (husable.of_parent? hq)
            (Path.trimmed_of_parent? hq) ?_
          rw [List.length_append, List.length_singleton] at habove
          omega
        rw [makeUpTo_of_noEntry htext k hmake hq]
        cases hmade : d.makeUpTo q k with
        | mk d₁ result =>
          have hgrown := grown_makeUpTo d q k
          rw [hmade] at hgrown hparent
          cases hstop : (d.headway l names).2 with
          | some e₀ =>
            -- The parent is not made, and so is not `p`.
            have hresult := hparent.result
            rw [hstop] at hresult
            obtain rfl : result = .error e₀ := hresult
            rw [headway_concat_of_some hstop, asFolder, if_neg]
            · exact ⟨hparent.current, hparent.node, rfl⟩
            · rintro rfl
              exact hmissing hreach hstop
          | none =>
            have hresult := hparent.result
            rw [hstop] at hresult
            obtain rfl : result = .ok () := hresult
            refine hparent.headed_ensureDirectory hgrown hstop husable htrimmed hsteps ?_ hnames
            exact reach_of_directories hbase fun _ => hgrown.directory
      · have hensure := ensureDirectory_of_reach_eq_error husable htrimmed hsteps' hn
          (hfolder.trans hreach)
        obtain ⟨hstop, hdirs⟩ := hstopped e hmissed hreach
        obtain ⟨e₀, he₀, rfl⟩ := Option.map_eq_some_iff.1 hstop
        have hother : d.makeDirectory p ≠ .error .noEntry := by
          rw [hmake]
          exact fun h => hmissed (Except.error.inj h)
        rw [makeUpTo_of_makeDirectory htext _ hother, hensure, headway_concat_of_some he₀]
        exact Headed.of_directories hdirs

end Disk

end Folio
