import Folio.Proofs.Disk.Removal
import Folio.Proofs.Site.Entries
import Folio.Proofs.Site.Load

/-!
# What pruning removes

Pruning is refused where the root or the description directory lies in the output
directory (`Site.Prunable`). Otherwise the files that a walk comes to and no entry gives are
removed one after another, until one of them cannot be removed : what was stale falls into
what is gone and a rest (`Site.exists_gone`).

A location is exposed (`Site.Exposes`) if it lies below the output directory, which is
pruned, and is no output of an entry. Nothing is removed that is not exposed
(`Site.exposes_of_removes`). If a walk comes to all files below the output directory and
all of them can be removed (`Site.Walkable`), then whatever is exposed goes
(`Site.removes_iff`). In any case a second pruning removes nothing more (`Site.prune_prune`).
-/

namespace Folio

namespace Site

variable {s : Site} {d : Disk} {root p : Path} {l m : Location} {names : List Text} {tag : Text}

theorem map_name_prefix_iff {others : List Text} :
    names.map Component.name <+: others.map Component.name ↔ names <+: others := by
  rw [List.prefix_map_iff]
  constructor
  · rintro ⟨first, hfirst, hsame⟩
    rwa [(List.map_inj_right fun _ _ => Component.name.inj).1 hsame]
  · exact fun h => ⟨names, h, rfl⟩

/-- A location lies in another one if it goes on from there. -/
theorem liesIn_normalOf : liesIn (Disk.normalOf l) (Disk.normalOf m) ↔ m <+: l := by
  have hcomponents : ∀ x, (Disk.normalOf x).components = .root :: x.map .name := fun _ => rfl
  rw [liesIn, List.isPrefixOf_iff_prefix, hcomponents, hcomponents, List.cons_prefix_cons,
    and_iff_right rfl, map_name_prefix_iff]

/-! ## Exposed locations -/

/-- Whether the output directory is pruned : it is there, and no directory of sources
lies in it. -/
structure Prunable (s : Site) (d : Disk) : Prop where
  isDirectory : d.isDirectory s.outputDir
  unguarded : ∀ dir ∈ s.sourceDirs, ¬liesIn (d.resolve dir) (d.resolve s.outputDir)

/-- Whether pruning removes a file that stands at a location : it lies below the output
directory, which is pruned, and its path from there is no output of an entry. -/
structure Exposes (s : Site) (d : Disk) (l : Location) : Prop where
  prunable : s.Prunable d
  below : ∃ names, names ≠ [] ∧ l = d.place s.outputDir ++ names ∧
    ∀ e ∈ s.manifest.entries, (s.outputPath e).normal ≠ (s.spelledBelow names).normal

/-- A directory that is found and in which the output directory lies guards it : what is
pruned does not lie around it. -/
theorem Prunable.not_prefix (h : s.Prunable d) {dir : Path} (hdir : dir ∈ s.sourceDirs)
    (hfound : d.isDirectory dir) : ¬d.place s.outputDir <+: d.place dir := by
  have hresolve : ∀ {q}, d.isDirectory q → d.resolve q = Disk.normalOf (d.place q) := by
    intro q hq
    unfold Disk.resolve
    rw [(Disk.isDirectory_iff.1 hq).1]
  have hguard := h.unguarded dir hdir
  rwa [hresolve hfound, hresolve h.isDirectory, liesIn_normalOf] at hguard

/-- What stands in a directory of sources itself is not exposed. -/
theorem not_exposes_of_sourceDir {dir : Path} {n : Text} (hdir : dir ∈ s.sourceDirs)
    (hne : dir.text ≠ []) (hn : n.IsName) (hfile : d.isFile (dir.join ⟨n⟩)) :
    ¬s.Exposes d (d.place (dir.join ⟨n⟩)) := by
  rintro ⟨hprunable, names, hbelow, hplace, -⟩
  have hrel : ¬(⟨n⟩ : Path).isAbsolute := Path.not_isAbsolute_of_name hn
  obtain ⟨c, hc⟩ := Disk.isFile_iff.1 hfile
  have hfound : d.isDirectory dir :=
    Disk.isDirectory_of_find?_join hne hrel (Disk.read_eq_ok_iff.1 hc).1
  refine hprunable.not_prefix hdir hfound ?_
  -- The last name below the output directory is that of the file.
  obtain ⟨above, last, rfl⟩ := (List.eq_nil_or_concat names).resolve_left hbelow
  rw [Disk.place_join_name hn, List.concat_eq_append, ← List.append_assoc] at hplace
  exact ⟨above, (List.append_inj_left' hplace rfl).symm⟩

/-! ## What pruning comes to -/

theorem prune_of_not_prunable (h : ¬s.Prunable d) : s.prune d = (d, .ok []) ∨
    ∃ dir ∈ s.sourceDirs, s.prune d = (d, .error (.unsafePrune s.outputDir dir)) := by
  unfold prune
  split
  · rename_i l hdirectory hfind
    dsimp only
    split
    · rename_i dir hguard
      exact Or.inr ⟨dir, List.mem_of_find?_eq_some hguard, rfl⟩
    · rename_i hguard
      refine absurd ⟨hdirectory, fun dir hdir => ?_⟩ h
      exact List.find?_eq_none.1 hguard dir hdir
  · exact Or.inl rfl

theorem mem_namesBelow : names ∈ namesBelow d l ↔ l ++ names ∈ d.files := by
  rw [namesBelow, List.mem_map]
  constructor
  · rintro ⟨file, hfile, rfl⟩
    obtain ⟨hmem, hbelow⟩ := List.mem_filter.1 hfile
    obtain ⟨names, rfl⟩ := List.isPrefixOf_iff_prefix.1 hbelow
    rwa [List.drop_left]
  · intro hmem
    refine ⟨l ++ names, List.mem_filter.2 ⟨hmem, ?_⟩, List.drop_left⟩
    exact List.isPrefixOf_iff_prefix.2 (List.prefix_append l names)

/-- What is stale : the files below a location that a walk comes to and whose paths are no
outputs. -/
theorem mem_stale : names ∈ s.stale d l ↔ l ++ names ∈ d.files ∧ s.Visits d names ∧
    ∀ e ∈ s.manifest.entries, (s.outputPath e).normal ≠ (s.spelledBelow names).normal := by
  have hexpected : (!s.expected.contains (s.spelledBelow names).normal) = true ↔
      ∀ e ∈ s.manifest.entries, (s.outputPath e).normal ≠ (s.spelledBelow names).normal := by
    rw [Bool.not_eq_true', ← Bool.not_eq_true, List.contains_iff_mem, expected, List.mem_map]
    exact ⟨fun h e he heq => h ⟨e, he, heq⟩, fun h ⟨e, he, heq⟩ => h e he heq⟩
  rw [stale, List.mem_filter, mem_namesBelow, decide_eq_true_iff, hexpected]

theorem nodup_stale (s : Site) (d : Disk) (l : Location) : (s.stale d l).Nodup := by
  have hfiles : (d.files.filter l.isPrefixOf).Nodup := d.nodup_files.filter _
  refine List.Pairwise.filter _ (List.pairwise_map.2 (hfiles.imp_of_mem ?_))
  intro x y hx hy hne heq
  obtain ⟨names, rfl⟩ := List.isPrefixOf_iff_prefix.1 (List.mem_filter.1 hx).2
  obtain ⟨names', rfl⟩ := List.isPrefixOf_iff_prefix.1 (List.mem_filter.1 hy).2
  rw [List.drop_left, List.drop_left] at heq
  exact hne (congrArg (l ++ ·) heq)

theorem place_spelledBelow (hnames : ∀ n ∈ names, n.IsName) (d : Disk) :
    d.place (s.spelledBelow names) = d.place s.outputDir ++ names :=
  Disk.place_foldl_join hnames

/-- The paths of what is stale below the output directory. -/
def stalePaths (s : Site) (d : Disk) : List Path :=
  (s.stale d (d.place s.outputDir)).map s.spelledBelow

theorem prune_of_prunable (h : s.Prunable d) :
    (s.prune d).1 = (d.removeFiles (s.stalePaths d)).1 ∧
      ((d.removeFiles (s.stalePaths d)).2 = .ok () →
        (s.prune d).2 = .ok ((s.stalePaths d).mergeSort Path.le)) ∧
      ∀ e, (d.removeFiles (s.stalePaths d)).2 = .error e →
        (s.prune d).2 = .error (.unremovable e) := by
  obtain ⟨hfind, -⟩ := Disk.isDirectory_iff.1 h.isDirectory
  have hguard : s.sourceDirs.find? (fun p => liesIn (d.resolve p) (d.resolve s.outputDir)) =
      none := List.find?_eq_none.2 h.unguarded
  unfold prune stalePaths
  rw [h.isDirectory, hfind]
  dsimp only
  rw [hguard]
  dsimp only
  cases d.removeFiles ((s.stale d (d.place s.outputDir)).map s.spelledBelow) with
  | mk d' result =>
    cases result with
    | ok _ => exact ⟨rfl, fun _ => rfl, nofun⟩
    | error e => exact ⟨rfl, nofun, fun e' he => by rw [Except.error.inj he]⟩

theorem prune_of_stale_eq_nil (h : s.Prunable d) (hnil : s.stale d (d.place s.outputDir) = []) :
    s.prune d = (d, .ok []) := by
  obtain ⟨hdisk, hok, -⟩ := prune_of_prunable h
  rw [stalePaths, hnil] at hdisk hok
  exact Prod.ext hdisk ((hok rfl).trans (congrArg Except.ok List.mergeSort_nil))

/-- What was stale is gone or left. If something is left, then the first of it could not be
removed. -/
theorem exists_gone (h : s.Prunable d) : ∃ gone rest,
    s.stale d (d.place s.outputDir) = gone ++ rest ∧
    (∀ names ∈ gone, d.isFile (s.spelledBelow names)) ∧
    (∀ l ∈ gone.map (d.place s.outputDir ++ ·), d.node? l ≠ some .directory) ∧
    (s.prune d).1 = (gone.map (d.place s.outputDir ++ ·)).foldl Disk.removeTree d ∧
    (rest = [] ∧ (s.prune d).2 = .ok ((s.stalePaths d).mergeSort Path.le) ∨
      ∃ names more e, rest = names :: more ∧ (s.prune d).2 = .error (.unremovable e) ∧
        ¬d.isFile (s.spelledBelow names)) := by
  obtain ⟨hdisk, hok, herror⟩ := prune_of_prunable h
  cases hremoved : d.removeFiles (s.stalePaths d) with
  | mk d' result =>
    rw [hremoved] at hdisk hok herror
    obtain ⟨gonePaths, restPaths, hsplit, hgone, hdisk', hresult⟩ :=
      Disk.exists_gone_of_removeFiles hremoved
    obtain ⟨gone, rest, hstale, rfl, rfl⟩ := List.map_eq_append_iff.1 hsplit
    have hplace : ∀ names ∈ gone ++ rest,
        d.place (s.spelledBelow names) = d.place s.outputDir ++ names := by
      intro names hmem
      rw [← hstale] at hmem
      exact place_spelledBelow (mem_stale.1 hmem).2.1.1 d
    have hlocations : (gone.map s.spelledBelow).map d.place =
        gone.map (d.place s.outputDir ++ ·) := by
      rw [List.map_map]
      exact List.map_congr_left fun names hmem => hplace names (List.mem_append_left _ hmem)
    rw [hlocations] at hdisk'
    have hdirectory : ∀ l ∈ gone.map (d.place s.outputDir ++ ·), d.node? l ≠ some .directory := by
      intro l hl
      rw [← hlocations, List.map_map] at hl
      obtain ⟨names, hmem, rfl⟩ := List.mem_map.1 hl
      exact Disk.not_directory_of_isFile (hgone _ (List.mem_map_of_mem hmem))
    refine ⟨gone, rest, hstale, fun names hmem => hgone _ (List.mem_map_of_mem hmem),
      hdirectory, hdisk.trans hdisk', ?_⟩
    rcases hresult with ⟨hnil, rfl⟩ | ⟨p, more, e, hcons, rfl, hfile⟩
    · exact Or.inl ⟨List.map_eq_nil_iff.1 hnil, hok rfl⟩
    · obtain ⟨names, more', rfl, rfl, -⟩ := List.map_eq_cons_iff.1 hcons
      refine Or.inr ⟨names, more', e, rfl, herror e rfl, fun hbefore => hfile ?_⟩
      -- It is none of the files that are gone, so it was no file before.
      rw [hdisk']
      refine (Disk.frame_foldl_removeTree hdirectory).isFile hbefore fun hmem => ?_
      rw [hplace names (List.mem_append_right _ List.mem_cons_self)] at hmem
      obtain ⟨names', hmem', heq⟩ := List.mem_map.1 hmem
      obtain rfl := List.append_cancel_left heq
      have hnodup := nodup_stale s d (d.place s.outputDir)
      rw [hstale] at hnodup
      exact (List.nodup_append.1 hnodup).2.2 names' hmem' names' List.mem_cons_self rfl

/-! ## What is removed -/

/-- Whether pruning removes a file at a location. -/
def Removes (s : Site) (d : Disk) (l : Location) : Prop :=
  (∃ c, d.node? l = some (.file c)) ∧ (s.prune d).1.node? l = none

/-- What pruning removes are some files that are exposed. -/
theorem exists_removed (s : Site) (d : Disk) : ∃ removed : List Location,
    (s.prune d).1 = removed.foldl Disk.removeTree d ∧
    (∀ l ∈ removed, d.node? l ≠ some .directory) ∧
    ∀ l ∈ removed, s.Exposes d l ∧ ∃ c, d.node? l = some (.file c) := by
  by_cases h : s.Prunable d
  · obtain ⟨gone, rest, hstale, hgone, hdirectory, hdisk, -⟩ := exists_gone h
    refine ⟨_, hdisk, hdirectory, fun l hl => ?_⟩
    obtain ⟨names, hmem, rfl⟩ := List.mem_map.1 hl
    have hmem' : names ∈ s.stale d (d.place s.outputDir) := by
      rw [hstale]
      exact List.mem_append_left _ hmem
    obtain ⟨-, hvisits, hunlisted⟩ := mem_stale.1 hmem'
    obtain ⟨c, hc⟩ := Disk.isFile_iff.1 (hgone names hmem)
    obtain ⟨-, hnode⟩ := Disk.read_eq_ok_iff.1 hc
    rw [place_spelledBelow hvisits.1] at hnode
    refine ⟨⟨h, names, ?_, rfl, hunlisted⟩, c, hnode⟩
    rintro rfl
    rw [List.append_nil, (Disk.isDirectory_iff.1 h.isDirectory).2] at hnode
    cases hnode
  · refine ⟨[], ?_, nofun, nofun⟩
    rcases prune_of_not_prunable h with heq | ⟨dir, -, heq⟩ <;> rw [heq] <;> rfl

/-- Pruning touches the files that it removes, and nothing else. -/
theorem frame_prune (s : Site) (d : Disk) :
    Disk.Frame (s.Removes d) (s.Removes d) d (s.prune d).1 := by
  obtain ⟨removed, hdisk, hdirectory, hremoved⟩ := exists_removed s d
  have hgone : ∀ l ∈ removed, s.Removes d l := by
    intro l hl
    refine ⟨(hremoved l hl).2, ?_⟩
    rw [hdisk, Disk.node?_foldl_removeTree hdirectory, if_pos hl]
  rw [hdisk]
  exact (Disk.frame_foldl_removeTree hdirectory).mono hgone hgone

/-- No file is removed that is not exposed. -/
theorem exposes_of_removes (h : s.Removes d l) : s.Exposes d l := by
  obtain ⟨removed, hdisk, hdirectory, hremoved⟩ := exists_removed s d
  obtain ⟨⟨c, hc⟩, hnone⟩ := h
  rw [hdisk, Disk.node?_foldl_removeTree hdirectory] at hnone
  split at hnone
  · rename_i hmem
    exact (hremoved l hmem).1
  · rw [hc] at hnone
    cases hnone

theorem node?_prune_of_not_removes (h : ¬s.Removes d l) : (s.prune d).1.node? l = d.node? l := by
  obtain ⟨removed, hdisk, hdirectory, hremoved⟩ := exists_removed s d
  have hnode := Disk.node?_foldl_removeTree hdirectory l
  rw [← hdisk] at hnode
  rw [hnode, if_neg fun hmem => h ⟨(hremoved l hmem).2, by rw [hnode, if_pos hmem]⟩]

/-- Pruning spares a file, and its contents, unless it removes it. -/
theorem read_prune_iff {c : ByteArray} (hp : d.read p = .ok c) :
    (s.prune d).1.read p = .ok c ↔ ¬s.Removes d (d.place p) := by
  constructor
  · rintro hread ⟨-, hnone⟩
    obtain ⟨-, hnode⟩ := Disk.read_eq_ok_iff.1 hread
    rw [Disk.place_congr (frame_prune s d).current, hnone] at hnode
    cases hnode
  · exact (frame_prune s d).read hp

theorem isFile_prune_iff (hp : d.isFile p) :
    (s.prune d).1.isFile p ↔ ¬s.Removes d (d.place p) := by
  obtain ⟨c, hc⟩ := Disk.isFile_iff.1 hp
  constructor
  · intro hfile hremoves
    obtain ⟨c', hc'⟩ := Disk.isFile_iff.1 hfile
    obtain ⟨-, hnode⟩ := Disk.read_eq_ok_iff.1 hc'
    rw [Disk.place_congr (frame_prune s d).current, hremoves.2] at hnode
    cases hnode
  · exact (frame_prune s d).isFile hp

/-! ## Pruning again -/

/-- What is stale once some of it is gone is the rest, in the same order. -/
theorem stale_foldl_removeTree {gone rest : List (List Text)}
    (hstale : s.stale d l = gone ++ rest)
    (hdirectory : ∀ x ∈ gone.map (l ++ ·), d.node? x ≠ some .directory) :
    s.stale ((gone.map (l ++ ·)).foldl Disk.removeTree d) l = rest := by
  have hframe := Disk.frame_foldl_removeTree hdirectory
  have hvisits : ∀ names, s.Visits ((gone.map (l ++ ·)).foldl Disk.removeTree d) names ↔
      s.Visits d names := by
    refine fun names => and_congr_right fun _ => ⟨fun h => ?_, hframe.isDirectory⟩
    exact Disk.isDirectory_of_node? h hframe.current fun x v =>
      Disk.node?_of_foldl_removeTree hdirectory
  have hbelow : namesBelow ((gone.map (l ++ ·)).foldl Disk.removeTree d) l =
      (namesBelow d l).filter fun names => names ∉ gone := by
    unfold namesBelow
    rw [Disk.files_foldl_removeTree hdirectory, List.filter_map, List.filter_comm]
    congr 1
    refine List.filter_congr fun file hfile => ?_
    obtain ⟨names, rfl⟩ := List.isPrefixOf_iff_prefix.1 (List.mem_filter.1 hfile).2
    simp
  have hnodup := nodup_stale s d l
  rw [hstale] at hnodup
  have hapart := (List.nodup_append.1 hnodup).2.2
  have hfirst : gone.filter (fun names => names ∉ gone) = [] :=
    List.filter_eq_nil_iff.2 fun names hmem => by simp [hmem]
  have hlater : rest.filter (fun names => names ∉ gone) = rest :=
    List.filter_eq_self.2 fun names hmem => by
      simpa using fun hgone => hapart names hgone names hmem rfl
  calc s.stale ((gone.map (l ++ ·)).foldl Disk.removeTree d) l
      = (s.stale d l).filter fun names => names ∉ gone := by
        unfold stale
        simp only [hvisits, hbelow]
        exact List.filter_comm _ _ _
    _ = rest := by rw [hstale, List.filter_append, hfirst, hlater, List.nil_append]

/-- What a second pruning removes : nothing. If the first one has stopped, then the second
one stops at the same file. -/
theorem prune_prune (s : Site) (d : Disk) : (s.prune (s.prune d).1).1 = (s.prune d).1 ∧
    ∀ removed, (s.prune (s.prune d).1).2 = .ok removed → removed = [] := by
  have hnothing : ∀ {disk}, ¬s.Prunable disk → (s.prune disk).1 = disk ∧
      ∀ removed, (s.prune disk).2 = .ok removed → removed = [] := by
    intro disk h
    rcases prune_of_not_prunable h with heq | ⟨dir, -, heq⟩ <;> rw [heq]
    · exact ⟨rfl, fun removed hremoved => (Except.ok.inj hremoved).symm⟩
    · exact ⟨rfl, nofun⟩
  by_cases h' : s.Prunable (s.prune d).1
  · by_cases h : s.Prunable d
    · obtain ⟨gone, rest, hstale, hgone, hdirectory, hdisk, hrest⟩ := exists_gone h
      obtain ⟨gone', rest', hstale', hgone', -, hdisk', hrest'⟩ := exists_gone h'
      have hplace := Disk.place_congr (frame_prune s d).current s.outputDir
      have hnode : ∀ x v, (s.prune d).1.node? x = some v → d.node? x = some v := by
        rw [hdisk]
        exact fun x v => Disk.node?_of_foldl_removeTree hdirectory
      have hleft : rest = gone' ++ rest' := by
        rw [← hstale', hplace, hdisk, stale_foldl_removeTree hstale hdirectory]
      have hnil : gone' = [] := by
        cases gone' with
        | nil => rfl
        | cons names more =>
          -- The first one of the rest could not be removed, and still cannot be.
          have hfile := Disk.isFile_of_node? (hgone' names List.mem_cons_self)
            (frame_prune s d).current hnode
          rcases hrest with ⟨rfl, -⟩ | ⟨names', more', e, rfl, -, hnot⟩
          · cases hleft
          · rw [(List.cons.inj hleft).1] at hnot
            exact absurd hfile hnot
      rw [hnil] at hdisk' hstale'
      refine ⟨hdisk', fun removed hremoved => ?_⟩
      rcases hrest' with ⟨hnone, -⟩ | ⟨names, more, e, -, herror, -⟩
      · rw [hnone] at hstale'
        rw [prune_of_stale_eq_nil h' hstale'] at hremoved
        exact (Except.ok.inj hremoved).symm
      · rw [herror] at hremoved
        cases hremoved
    · have hsame := (hnothing h).1
      rw [hsame] at h'
      exact absurd h' h
  · exact hnothing h'

/-! ## Walks that miss nothing -/

/-- Whether a walk over the output directory comes to each file below it, and each of them
can be removed. -/
def Walkable (s : Site) (d : Disk) : Prop :=
  ∀ names ∈ namesBelow d (d.place s.outputDir),
    s.Visits d names ∧ d.isFile (s.spelledBelow names)

instance (s : Site) (d : Disk) : Decidable (s.Walkable d) :=
  inferInstanceAs (Decidable (∀ names ∈ namesBelow d (d.place s.outputDir), _ ∧ _))

theorem Walkable.mem_stale_iff (hw : s.Walkable d) :
    names ∈ s.stale d (d.place s.outputDir) ↔ d.place s.outputDir ++ names ∈ d.files ∧
      ∀ e ∈ s.manifest.entries, (s.outputPath e).normal ≠ (s.spelledBelow names).normal := by
  rw [mem_stale]
  exact and_congr_right fun hmem => and_iff_right (hw names (mem_namesBelow.2 hmem)).1

theorem Walkable.not_directory (hw : s.Walkable d) :
    ∀ l ∈ (s.stale d (d.place s.outputDir)).map (d.place s.outputDir ++ ·),
      d.node? l ≠ some .directory := by
  intro l hl
  obtain ⟨names, hmem, rfl⟩ := List.mem_map.1 hl
  obtain ⟨hvisits, hfile⟩ := hw names (mem_namesBelow.2 (mem_stale.1 hmem).1)
  rw [← place_spelledBelow hvisits.1]
  exact Disk.not_directory_of_isFile hfile

/-- If all files can be removed, pruning removes what is stale and answers its paths. -/
theorem Walkable.prune (hw : s.Walkable d) (h : s.Prunable d) : s.prune d =
    (((s.stale d (d.place s.outputDir)).map (d.place s.outputDir ++ ·)).foldl Disk.removeTree d,
      .ok ((s.stalePaths d).mergeSort Path.le)) := by
  obtain ⟨gone, rest, hstale, -, -, hdisk, ⟨hrest, hok⟩ | ⟨names, more, e, rfl, -, hnot⟩⟩ :=
    exists_gone h
  · rw [hrest, List.append_nil] at hstale
    rw [hstale]
    exact Prod.ext hdisk hok
  · have hmem : names ∈ s.stale d (d.place s.outputDir) := by
      rw [hstale]
      exact List.mem_append_right _ List.mem_cons_self
    exact absurd (hw names (mem_namesBelow.2 (mem_stale.1 hmem).1)).2 hnot

/-- If all files can be removed, exactly those go that are exposed. -/
theorem removes_iff (hw : s.Walkable d) :
    s.Removes d l ↔ s.Exposes d l ∧ ∃ c, d.node? l = some (.file c) := by
  refine ⟨fun h => ⟨exposes_of_removes h, h.1⟩, ?_⟩
  rintro ⟨⟨h, names, hne, rfl, hunlisted⟩, c, hc⟩
  have hmem : names ∈ s.stale d (d.place s.outputDir) :=
    hw.mem_stale_iff.2 ⟨Disk.mem_files hc, hunlisted⟩
  refine ⟨⟨c, hc⟩, ?_⟩
  rw [hw.prune h, Disk.node?_foldl_removeTree hw.not_directory,
    if_pos (List.mem_map_of_mem hmem)]

theorem removes_iff_exposes (hw : s.Walkable d) {c : ByteArray}
    (hl : d.node? l = some (.file c)) : s.Removes d l ↔ s.Exposes d l := by
  rw [removes_iff hw, and_iff_left ⟨c, hl⟩]

/-! ## Pruning after a build -/

theorem pruneAfter_dryRun (s : Site) (d : Disk) : s.pruneAfter .dryRun d = (d, []) := by
  unfold pruneAfter
  cases s.config.prune <;> rfl

theorem pruneAfter_write : s.pruneAfter (.write tag) d =
    if s.config.prune then ((s.prune d).1, (s.prune d).2.toOption.getD []) else (d, []) := by
  unfold pruneAfter
  cases s.config.prune with
  | false => rfl
  | true =>
    dsimp only
    split <;> rename_i hpruned <;> rw [hpruned] <;> rfl

/-- After pruning nothing is left to be pruned. -/
theorem pruneAfter_pruneAfter (s : Site) (tag again : Text) (d : Disk) :
    s.pruneAfter (.write again) (s.pruneAfter (.write tag) d).1 =
      ((s.pruneAfter (.write tag) d).1, []) := by
  rw [pruneAfter_write, pruneAfter_write]
  split
  · obtain ⟨hdisk, hremoved⟩ := prune_prune s d
    rw [hdisk]
    refine congrArg (Prod.mk _) ?_
    cases hresult : (s.prune (s.prune d).1).2 with
    | error reason => rfl
    | ok removed => exact hremoved removed hresult
  · rfl

theorem frame_pruneAfter (s : Site) (tag : Text) (d : Disk) :
    Disk.Frame (fun l => s.config.prune ∧ s.Removes d l) (fun l => s.config.prune ∧ s.Removes d l)
      d (s.pruneAfter (.write tag) d).1 := by
  rw [pruneAfter_write]
  split
  · rename_i hprune
    exact (frame_prune s d).mono (fun l h => ⟨hprune, h⟩) fun l h => ⟨hprune, h⟩
  · exact Disk.Frame.refl _ _ d

/-- The disk that a build leaves behind. -/
theorem build_write_fst : (s.build (.write tag) d).1 =
    if s.config.prune then (s.prune (s.renderAll (.write tag) d s.manifest.entries).1).1
    else (s.renderAll (.write tag) d s.manifest.entries).1 := by
  rw [build_eq]
  dsimp only
  rw [pruneAfter_write]
  split <;> rfl

/-- A build that writes artifacts spares a file, if no temporary file takes its place,
unless it prunes and removes the file when all entries are built. -/
theorem isFile_build_iff (hp : d.isFile p)
    (htemporary : ∀ e ∈ s.manifest.entries,
      d.place (Writer.temporaryFor (s.outputPath e) tag) ≠ d.place p) :
    (s.build (.write tag) d).1.isFile p ↔ ¬(s.config.prune ∧
      s.Removes (s.renderAll (.write tag) d s.manifest.entries).1 (d.place p)) := by
  have hframe := frame_renderAll s tag d s.manifest.entries
  have hp' := hframe.isFile hp fun ⟨e, he, heq⟩ => htemporary e he heq.symm
  rw [build_write_fst]
  split
  · rename_i hprune
    rw [isFile_prune_iff hp', Disk.place_congr hframe.current]
    simp only [hprune, true_and]
  · rename_i hprune
    exact ⟨fun _ h => hprune h.1, fun _ => hp'⟩

/-! ## Projects with an absolute root -/

theorem isAbsolute_outputDir (hroot : s.root.isAbsolute) : s.outputDir.isAbsolute :=
  Path.isAbsolute_join hroot

theorem isAbsolute_outputPath (hroot : s.root.isAbsolute) (e : Entry) :
    (s.outputPath e).isAbsolute :=
  Path.isAbsolute_join (isAbsolute_outputDir hroot)

theorem isAbsolute_spelledBelow (hroot : s.root.isAbsolute) (names : List Text) :
    (s.spelledBelow names).isAbsolute := by
  have habs : ∀ (names : List Text) (q : Path), q.isAbsolute →
      (names.foldl (fun p n => p.join ⟨n⟩) q).isAbsolute := by
    intro names
    induction names with
    | nil => exact fun _ hq => hq
    | cons n rest ih => exact fun q hq => ih _ (Path.isAbsolute_join hq)
  exact habs names _ (isAbsolute_outputDir hroot)

/-- Names below the output directory are spelled as they lie. -/
theorem normal_spelledBelow (hroot : s.root.isAbsolute) (hnames : ∀ n ∈ names, n.IsName)
    (d : Disk) : (s.spelledBelow names).normal =
      Disk.normalOf (d.place s.outputDir ++ names) := by
  rw [Disk.normal_eq_place (d := d) (isAbsolute_spelledBelow hroot names),
    place_spelledBelow hnames]

theorem isAbsolute_of_mem_sourceDirs (hroot : s.root.isAbsolute) {dir : Path}
    (hdir : dir ∈ s.sourceDirs) : dir.isAbsolute := by
  rcases List.mem_cons.1 hdir with rfl | hdir
  · exact hroot
  · obtain rfl := List.mem_singleton.1 hdir
    exact Path.isAbsolute_join hroot

/-- In a project with an absolute root what is exposed is said by places alone. -/
theorem exposes_iff_of_isAbsolute (hroot : s.root.isAbsolute) (hp : p.isAbsolute) :
    s.Exposes d (d.place p) ↔ d.isDirectory s.outputDir ∧
      (∀ dir ∈ s.sourceDirs, ¬d.place s.outputDir <+: d.place dir) ∧
      d.place s.outputDir <+: d.place p ∧ d.place p ≠ d.place s.outputDir ∧
      ∀ e ∈ s.manifest.entries, d.place (s.outputPath e) ≠ d.place p := by
  have hguard : ∀ dir ∈ s.sourceDirs, liesIn (d.resolve dir) (d.resolve s.outputDir) ↔
      d.place s.outputDir <+: d.place dir := by
    intro dir hdir
    rw [Disk.resolve_eq_place (isAbsolute_of_mem_sourceDirs hroot hdir),
      Disk.resolve_eq_place (isAbsolute_outputDir hroot), liesIn_normalOf]
  -- An output stands at the place if and only if it is spelled like the file there.
  have hlisted : ∀ names, d.place p = d.place s.outputDir ++ names → ∀ e,
      (s.outputPath e).normal = (s.spelledBelow names).normal ↔
        d.place (s.outputPath e) = d.place p := by
    intro names hplace e
    have hnames := Disk.isName_of_place_eq hp hplace
    rw [normal_spelledBelow hroot hnames d, ← hplace,
      Disk.normal_eq_place (d := d) (isAbsolute_outputPath hroot e), Disk.normalOf_inj]
  constructor
  · rintro ⟨⟨hdirectory, hunguarded⟩, names, hne, hplace, hunlisted⟩
    refine ⟨hdirectory, fun dir hdir h => ?_, ⟨names, hplace.symm⟩, fun h => hne ?_, ?_⟩
    · exact hunguarded dir hdir ((hguard dir hdir).2 h)
    · rw [hplace] at h
      exact List.append_right_eq_self.1 h
    · exact fun e he h => hunlisted e he ((hlisted names hplace e).2 h)
  · rintro ⟨hdirectory, hunguarded, ⟨names, hplace⟩, hne, hunlisted⟩
    refine ⟨⟨hdirectory, fun dir hdir h => ?_⟩, names, ?_, hplace.symm, ?_⟩
    · exact hunguarded dir hdir ((hguard dir hdir).1 h)
    · rintro rfl
      rw [List.append_nil] at hplace
      exact hne hplace.symm
    · exact fun e he h => hunlisted e he ((hlisted names hplace.symm e).1 h)

/-- The output of an entry is never exposed. -/
theorem not_exposes_of_output (hroot : s.root.isAbsolute) {e : Entry}
    (he : e ∈ s.manifest.entries) : ¬s.Exposes d (d.place (s.outputPath e)) := fun h =>
  ((exposes_iff_of_isAbsolute hroot (isAbsolute_outputPath hroot e)).1 h).2.2.2.2 e he rfl

end Site

end Folio
