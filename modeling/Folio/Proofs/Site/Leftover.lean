import Folio.Proofs.Path.Order
import Folio.Proofs.Site.Pruning

/-!
# Pruning is exact

In a project with an absolute root all that pruning asks can be said in normal forms of
paths, however the root, the output directory and the outputs are spelled. A file is left
over if it stands below the output directory and its path is the output of no entry,
whether that entry was built or not (`Site.Leftover`).

`Site.prune_exact` : there is nothing to prune where there is no output directory; pruning
is refused exactly if the output directory is a directory of sources or lies around one
(`Site.Encloses`); and otherwise exactly the files that are left over are removed, and
their paths are answered in order. A second pruning finds nothing.
-/

namespace Folio

namespace Disk

variable {d : Disk} {l : Location}

/-- Whether the locations of a disk are made of names, as those of every file tree are. -/
def WellNamed (d : Disk) : Prop :=
  ∀ e ∈ d.nodes, ∀ n ∈ e.1, n.IsName

instance (d : Disk) : Decidable d.WellNamed :=
  inferInstanceAs (Decidable (∀ e ∈ d.nodes, ∀ n ∈ e.1, n.IsName))

theorem WellNamed.isName_of_mem_files (h : d.WellNamed) (hl : l ∈ d.files) :
    ∀ n ∈ l, n.IsName := by
  obtain ⟨⟨k, v⟩, hmem, hv⟩ := List.mem_filterMap.1 hl
  cases v with
  | directory => cases hv
  | file c =>
    obtain rfl : k = l := Option.some.inj hv
    exact h _ hmem

/-- The locations of a disk are made of names if those are at which something is found. -/
theorem wellNamed_iff :
    d.WellNamed ↔ ∀ l v, d.node? l = some v → ∀ n ∈ l, n.IsName := by
  constructor
  · intro h l v hv
    rcases List.eq_nil_or_concat l with rfl | ⟨above, n, rfl⟩
    · exact nofun
    · rw [List.concat_eq_append] at hv ⊢
      exact h _ (mem_nodes_of_node? hv)
  · rintro h ⟨l, v⟩ hmem
    by_cases hl : l = []
    · rw [hl]
      exact nofun
    · exact h l v (node?_of_mem hmem hl)

end Disk

namespace Site

variable {s : Site} {d : Disk} {l : Location} {names names' : List Text}

/-! ## What is refused and what is left over -/

/-- Whether the output directory is a directory of sources or lies around one. -/
def Encloses (s : Site) : Prop :=
  ∃ dir ∈ s.sourceDirs, liesIn dir.normal s.outputDir.normal

instance (s : Site) : Decidable s.Encloses :=
  inferInstanceAs (Decidable (∃ dir ∈ s.sourceDirs, liesIn dir.normal s.outputDir.normal))

/-- Whether a file is left over : it stands below the output directory, and its path is
not that of an output. -/
structure Leftover (s : Site) (d : Disk) (l : Location) : Prop where
  isFile : ∃ c, d.node? l = some (.file c)
  below : liesIn (Disk.normalOf l) s.outputDir.normal
  unlisted : ∀ e ∈ s.manifest.entries, (s.outputPath e).normal ≠ Disk.normalOf l

/-- What pruning comes to where it is not refused : the disk that it leaves, and the paths
that it answers. -/
structure Pruned (s : Site) (d d' : Disk) (removed : List Path) : Prop where
  current : d'.current = d.current
  gone : ∀ l, s.Leftover d l → d'.node? l = none
  kept : ∀ l, ¬s.Leftover d l → d'.node? l = d.node? l
  mem_iff : ∀ p, p ∈ removed ↔ ∃ names, p = s.spelledBelow names ∧
    p.normal = Disk.normalOf (s.outputDir.normal.names ++ names) ∧
    s.Leftover d (s.outputDir.normal.names ++ names)
  ordered : removed.Pairwise fun p q => p.le q ∧ ¬q.le p

section Absolute

variable (hroot : s.root.isAbsolute)
include hroot

theorem normal_outputDir (d : Disk) : s.outputDir.normal = Disk.normalOf (d.place s.outputDir) :=
  Disk.normal_eq_place (isAbsolute_outputDir hroot)

theorem prunable_iff : s.Prunable d ↔ d.isDirectory s.outputDir ∧ ¬s.Encloses := by
  have hresolve : ∀ {p : Path}, p.isAbsolute → d.resolve p = p.normal := fun hp => by
    rw [Disk.resolve_eq_place hp, Disk.normal_eq_place (d := d) hp]
  have hguard : ∀ dir ∈ s.sourceDirs, liesIn (d.resolve dir) (d.resolve s.outputDir) =
      liesIn dir.normal s.outputDir.normal := fun dir hdir => by
    rw [hresolve (isAbsolute_of_mem_sourceDirs hroot hdir), hresolve (isAbsolute_outputDir hroot)]
  constructor
  · rintro ⟨hdirectory, hunguarded⟩
    refine ⟨hdirectory, fun ⟨dir, hdir, hin⟩ => hunguarded dir hdir ?_⟩
    rwa [hguard dir hdir]
  · rintro ⟨hdirectory, hencloses⟩
    refine ⟨hdirectory, fun dir hdir hin => hencloses ⟨dir, hdir, ?_⟩⟩
    rwa [← hguard dir hdir]

theorem prune_of_encloses (hdirectory : d.isDirectory s.outputDir) (h : s.Encloses) :
    ∃ dir ∈ s.sourceDirs, s.prune d = (d, .error (.unsafePrune s.outputDir dir)) := by
  have hunguarded : ¬s.Prunable d := fun hprunable => ((prunable_iff hroot).1 hprunable).2 h
  cases hguard : s.sourceDirs.find? fun p => liesIn (d.resolve p) (d.resolve s.outputDir) with
  | none =>
    exact absurd ⟨hdirectory, fun dir hdir => List.find?_eq_none.1 hguard dir hdir⟩ hunguarded
  | some dir =>
    refine ⟨dir, List.mem_of_find?_eq_some hguard, ?_⟩
    unfold prune
    rw [hdirectory, (Disk.isDirectory_iff.1 hdirectory).1]
    dsimp only
    rw [hguard]

/-- The output directory is not the root of the disk where it is pruned. -/
theorem place_outputDir_ne_nil (h : s.Prunable d) : d.place s.outputDir ≠ [] := by
  intro hnil
  refine ((prunable_iff hroot).1 h).2 ⟨s.root, List.mem_cons_self, ?_⟩
  rw [normal_outputDir hroot d, Disk.normal_eq_place (d := d) hroot, liesIn_normalOf, hnil]
  exact List.nil_prefix

theorem file_below_iff (h : s.Prunable d) : d.place s.outputDir ++ names ∈ d.files ↔
    ∃ c, d.node? (d.place s.outputDir ++ names) = some (.file c) :=
  Disk.mem_files_iff fun hnil =>
    place_outputDir_ne_nil hroot h (List.append_eq_nil_iff.1 hnil).1

/-- The names that lead to a file below the output directory spell its path. -/
theorem normal_spelledBelow_file (hnamed : d.WellNamed)
    (hfile : d.place s.outputDir ++ names ∈ d.files) :
    (s.spelledBelow names).normal = Disk.normalOf (d.place s.outputDir ++ names) :=
  normal_spelledBelow hroot
    (fun n hn => hnamed.isName_of_mem_files hfile n (List.mem_append_right _ hn)) d

/-- The paths of two stale files differ in more than their spelling. -/
theorem pairwise_normal_ne (d : Disk) :
    (s.stalePaths d).Pairwise fun p q => p.normal ≠ q.normal := by
  refine List.pairwise_map.2 ((nodup_stale s d _).imp_of_mem ?_)
  intro names names' hmem hmem' hne heq
  rw [normal_spelledBelow hroot (mem_stale.1 hmem).2.1.1 d,
    normal_spelledBelow hroot (mem_stale.1 hmem').2.1.1 d, Disk.normalOf_inj] at heq
  exact hne (List.append_cancel_left heq)

/-- The paths that pruning answers strictly increase. -/
theorem pairwise_lt_mergeSort (d : Disk) :
    ((s.stalePaths d).mergeSort Path.le).Pairwise fun p q => p.le q ∧ ¬q.le p := by
  have hdistinct := (List.mergeSort_perm _ Path.le).symm.pairwise
    (pairwise_normal_ne hroot d) Ne.symm
  refine ((Path.pairwise_mergeSort_le _).and hdistinct).imp ?_
  rintro p q ⟨hle, hne⟩
  refine ⟨hle, fun hge => hne ?_⟩
  rw [Path.normal, Path.normal, Path.components_eq_of_le_of_le hle hge]

variable (hnamed : d.WellNamed) (h : s.Prunable d)
include hnamed h

theorem leftover_iff : s.Leftover d (d.place s.outputDir ++ names) ↔
    d.place s.outputDir ++ names ∈ d.files ∧
      ∀ e ∈ s.manifest.entries, (s.outputPath e).normal ≠ (s.spelledBelow names).normal := by
  constructor
  · rintro ⟨hfile, -, hunlisted⟩
    have hmem := (file_below_iff hroot h).2 hfile
    rw [normal_spelledBelow_file hroot hnamed hmem]
    exact ⟨hmem, hunlisted⟩
  · rintro ⟨hmem, hunlisted⟩
    rw [normal_spelledBelow_file hroot hnamed hmem] at hunlisted
    refine ⟨(file_below_iff hroot h).1 hmem, ?_, hunlisted⟩
    rw [normal_outputDir hroot d, liesIn_normalOf]
    exact List.prefix_append _ names

/-- A walk misses nothing, and everything can be removed, if no name and no path is too
long. -/
theorem walkable_of_size_le (hshort : ∀ names ∈ namesBelow d (d.place s.outputDir),
    (∀ n ∈ names, n.size ≤ Disk.nameLimit) ∧ Disk.IsUsable (s.spelledBelow names)) :
    s.Walkable d := by
  intro names hmem
  obtain ⟨hsize, husable⟩ := hshort names hmem
  have hfile := mem_namesBelow.1 hmem
  have hnames : ∀ n ∈ names, n.IsName := fun n hn =>
    hnamed.isName_of_mem_files hfile n (List.mem_append_right _ hn)
  obtain ⟨c, hc⟩ := (file_below_iff hroot h).1 hfile
  have hfind : d.find? (s.spelledBelow names) = .ok (d.place s.outputDir ++ names) := by
    have habsolute := isAbsolute_outputDir hroot
    exact Disk.find?_foldl_join (Path.text_ne_nil_of_isAbsolute habsolute) h.isDirectory hnames
      hsize husable (by rw [hc]; rfl)
  rw [← place_spelledBelow hnames] at hc hfind
  refine ⟨⟨hnames, ?_⟩, Disk.isFile_iff.2 ⟨c, Disk.read_eq_ok_iff.2 ⟨hfind, hc⟩⟩⟩
  -- The directory that holds the file is found on the way to it.
  rcases List.eq_nil_or_concat names with rfl | ⟨above, n, rfl⟩
  · exact h.isDirectory
  · rw [List.concat_eq_append, spelledBelow, List.foldl_append] at hfind
    rw [List.concat_eq_append, List.dropLast_concat]
    have hn : n.IsName := hnames n (by simp)
    refine Disk.isDirectory_of_find?_join ?_ (Path.not_isAbsolute_of_name hn) hfind
    exact Path.text_ne_nil_of_isAbsolute (isAbsolute_spelledBelow hroot above)

variable (hw : s.Walkable d)
include hw

theorem mem_stale_iff_leftover : names ∈ s.stale d (d.place s.outputDir) ↔
    s.Leftover d (d.place s.outputDir ++ names) := by
  rw [hw.mem_stale_iff, leftover_iff hroot hnamed h]

/-- What is left over is removed. -/
theorem removes_iff_leftover : s.Removes d l ↔ s.Leftover d l := by
  rw [removes_iff hw]
  constructor
  · rintro ⟨⟨-, names, -, rfl, hunlisted⟩, hfile⟩
    exact (leftover_iff hroot hnamed h).2 ⟨(file_below_iff hroot h).2 hfile, hunlisted⟩
  · intro hleft
    have hbelow := hleft.below
    rw [normal_outputDir hroot d, liesIn_normalOf] at hbelow
    obtain ⟨names, rfl⟩ := hbelow
    obtain ⟨hmem, hunlisted⟩ := (leftover_iff hroot hnamed h).1 hleft
    refine ⟨⟨h, names, ?_, rfl, hunlisted⟩, hleft.isFile⟩
    rintro rfl
    obtain ⟨c, hc⟩ := hleft.isFile
    rw [List.append_nil, (Disk.isDirectory_iff.1 h.isDirectory).2] at hc
    cases hc

theorem exists_pruned : ∃ removed, (s.prune d).2 = .ok removed ∧
    s.Pruned d (s.prune d).1 removed := by
  have hframe := frame_prune s d
  refine ⟨(s.stalePaths d).mergeSort Path.le, congrArg Prod.snd (hw.prune h), hframe.current,
    fun l hl => ((removes_iff_leftover hroot hnamed h hw).2 hl).2, fun l hl => ?_, fun p => ?_,
    pairwise_lt_mergeSort hroot d⟩
  · exact node?_prune_of_not_removes fun hr => hl ((removes_iff_leftover hroot hnamed h hw).1 hr)
  · have hnames : s.outputDir.normal.names = d.place s.outputDir := by
      rw [normal_outputDir hroot d]
      rfl
    rw [hnames, List.mem_mergeSort, stalePaths, List.mem_map]
    constructor
    · rintro ⟨names, hstale, rfl⟩
      exact ⟨names, rfl, normal_spelledBelow_file hroot hnamed (mem_stale.1 hstale).1,
        (mem_stale_iff_leftover hroot hnamed h hw).1 hstale⟩
    · rintro ⟨names, rfl, -, hleft⟩
      exact ⟨names, (mem_stale_iff_leftover hroot hnamed h hw).2 hleft, rfl⟩

end Absolute

/-- After a pruning that has removed all that is stale another one finds nothing. -/
theorem prune_again (hroot : s.root.isAbsolute) (h : s.Prunable d) (hw : s.Walkable d) :
    s.prune (s.prune d).1 = ((s.prune d).1, .ok []) := by
  have h' : s.Prunable (s.prune d).1 := by
    rw [prunable_iff hroot] at h ⊢
    exact ⟨(frame_prune s d).isDirectory h.1, h.2⟩
  refine prune_of_stale_eq_nil h' ?_
  have hprune := congrArg Prod.fst (hw.prune h)
  rw [Disk.place_congr (frame_prune s d).current, hprune]
  exact stale_foldl_removeTree (List.append_nil _).symm hw.not_directory

/-! ## Exactness -/

/-- Without an output directory nothing is pruned. With one, pruning is refused and leaves
the disk alone exactly if the output directory encloses a directory of sources. Otherwise,
if a walk comes to all files below the output directory and all of them can be removed,
exactly the files that are left over are removed, their paths are answered in order, each
of them once, and a second pruning answers none. -/
theorem prune_exact (s : Site) (d : Disk) (hroot : s.root.isAbsolute) (hnamed : d.WellNamed) :
    (¬d.isDirectory s.outputDir → s.prune d = (d, .ok [])) ∧
    (d.isDirectory s.outputDir →
      ((∃ dir ∈ s.sourceDirs, s.prune d = (d, .error (.unsafePrune s.outputDir dir))) ↔
        s.Encloses) ∧
      (¬s.Encloses → s.Walkable d → ∃ removed, (s.prune d).2 = .ok removed ∧
        s.Pruned d (s.prune d).1 removed ∧
        s.prune (s.prune d).1 = ((s.prune d).1, .ok []))) := by
  refine ⟨fun hdirectory => ?_, fun hdirectory => ⟨⟨?_, ?_⟩, fun hencloses hw => ?_⟩⟩
  · unfold prune
    rw [Bool.not_eq_true] at hdirectory
    rw [hdirectory]
  · rintro ⟨dir, -, hrefused⟩
    refine Classical.byContradiction fun hencloses => ?_
    have h := (prunable_iff hroot).2 ⟨hdirectory, hencloses⟩
    obtain ⟨-, -, -, -, -, -, ⟨-, hok⟩ | ⟨-, -, e, -, herror, -⟩⟩ := exists_gone h
    · rw [hrefused] at hok
      cases hok
    · rw [hrefused] at herror
      cases herror
  · exact prune_of_encloses hroot hdirectory
  · have h := (prunable_iff hroot).2 ⟨hdirectory, hencloses⟩
    obtain ⟨removed, hremoved, hpruned⟩ := exists_pruned hroot hnamed h hw
    exact ⟨removed, hremoved, hpruned, prune_again hroot h hw⟩

/-- A project that was built before. Its output directory is spelled in a roundabout way,
the output of an entry that fails is in it, and so are two files that no entry gives any
more. -/
def renamedPages : Disk :=
  .ofFiles [
    ("/p/stencil.toml", "output = \"./x/..//site/\"\n"),
    ("/p/site-description/out.txt", "page > = > ./page\ngone > $ > old/../kept\n"),
    ("/p/site-description/page", "text\n"),
    ("/p/x/y", "\n"),
    ("/p/site/page", "text\n"),
    ("/p/site/kept", "text\n"),
    ("/p/site/page.html", "text\n"),
    ("/p/site/blog/first", "text\n")]

/-- Pruning this project removes the two files, and then nothing any more. -/
theorem prune_exact_renamedPages : ∃ s, load renamedPages (.ofString "/p") = .ok s ∧
    s.root.isAbsolute ∧ renamedPages.WellNamed ∧ renamedPages.isDirectory s.outputDir ∧
    ¬s.Encloses ∧ s.Walkable renamedPages ∧
    ∃ removed, (s.prune renamedPages).2 = .ok removed ∧
      s.Pruned renamedPages (s.prune renamedPages).1 removed ∧
      (∀ name ∈ ["page.html", "blog/first"],
        ¬(s.prune renamedPages).1.isFile (s.outputDir.join (.ofString name))) ∧
      (∀ name ∈ ["page", "kept"],
        (s.prune renamedPages).1.isFile (s.outputDir.join (.ofString name))) ∧
      s.prune (s.prune renamedPages).1 = ((s.prune renamedPages).1, .ok []) := by
  have hnamed : renamedPages.WellNamed := by decide +kernel
  have hsite : (load renamedPages (.ofString "/p")).toOption.any fun s =>
      decide (s.root.isAbsolute ∧ renamedPages.isDirectory s.outputDir ∧ ¬s.Encloses ∧
        s.Walkable renamedPages ∧
        (∀ name ∈ ["page.html", "blog/first"],
          ¬(s.prune renamedPages).1.isFile (s.outputDir.join (.ofString name))) ∧
        (∀ name ∈ ["page", "kept"],
          (s.prune renamedPages).1.isFile (s.outputDir.join (.ofString name)))) := by
    decide +kernel
  obtain ⟨s, hload, hs⟩ := exists_of_any_toOption hsite
  obtain ⟨hroot, hdirectory, hencloses, hw, hgone, hkept⟩ := of_decide_eq_true hs
  obtain ⟨-, hexact⟩ := prune_exact s renamedPages hroot hnamed
  obtain ⟨removed, hremoved, hpruned, hagain⟩ := (hexact hdirectory).2 hencloses hw
  exact ⟨s, hload, hroot, hnamed, hdirectory, hencloses, hw, removed, hremoved, hpruned, hgone,
    hkept, hagain⟩

end Site

end Folio
