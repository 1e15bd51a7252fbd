import Mathlib.Data.List.Pairwise
import Folio.Proofs.Disk.Tags
import Folio.Proofs.Site.DryRun

/-!
# Entries in any order

Entries are separate if none of them reads what another one writes, or writes on the way to
what another one writes (`Site.Separate`). What such an entry does to the disk is one and
the same patch, whether others come before it or not (`Site.Separate.exists_isPatch`). A run
over entries merges their patches (`Site.Separate.merged_renderAll`), so that the order of
the entries makes no difference (`Site.render_in_any_order`).

Each entry has a tag of its own for its temporary file, and in another order it may have
another one (`Site.Separate.renderEntry_of_tagsAlike`).
-/

namespace Folio

namespace Site

variable {s : Site} {d d' : Disk} {e : Entry} {a : Artifact} {tag : Text} {order : List Entry}

/-! ## What an entry reads -/

/-- The paths of the documents that an entry wants to read. -/
def wanted (s : Site) (d : Disk) (e : Entry) : List Path :=
  match e.mode with
  | .template => (d.source.walk s.rules (s.inputPath e)).wanted (s.inputPath e)
  | .copy => [s.inputPath e]

/-- An entry is rendered alike, or fails alike, on a disk that has the same on the routes
of all that it wants to read, and in its output. -/
theorem render_congr (hcurrent : d'.current = d.current)
    (hwanted : ∀ p ∈ s.wanted d e, ∀ l ∈ d.route p, d'.node? l = d.node? l)
    (hprevious : (d'.read (s.outputPath e)).toOption = (d.read (s.outputPath e)).toOption) :
    s.render d' e = s.render d e := by
  unfold wanted at hwanted
  unfold render
  dsimp only
  rw [hprevious]
  cases hmode : e.mode with
  | template =>
    rw [hmode] at hwanted
    have hbuild : d'.source.build s.rules (s.inputPath e) s.globals =
        d.source.build s.rules (s.inputPath e) s.globals := by
      refine Source.build_congr (fun p hp => ?_) s.globals
      exact ⟨Disk.readText_congr (Disk.read_congr hcurrent (hwanted p hp)),
        Disk.resolve_congr hcurrent (hwanted p hp)⟩
    dsimp only
    rw [hbuild]
  | copy =>
    rw [hmode] at hwanted
    dsimp only
    rw [Disk.read_congr hcurrent (hwanted _ (List.mem_singleton_self _))]

/-- The output of an entry that is built holds its contents. -/
theorem read_outputPath_of_ok (h : (s.renderEntry d (.write tag) e).2 = .ok a) :
    (s.renderEntry d (.write tag) e).1.read (s.outputPath e) = .ok a.contents := by
  obtain ⟨hrender, hread⟩ := renderEntry_eq_ok (Prod.ext rfl h)
  rwa [(render_eq_ok_iff.1 hrender).2.2.1] at hread

/-! ## Separate entries -/

/-- Whether the entries of a site keep out of each other's way : their outputs are names
below an output directory that is there, none of them is another one or lies in it, and
nothing that an entry wants to read is in the output directory, even on the way. -/
structure Separate (s : Site) (d : Disk) : Prop where
  directory : d.isDirectory s.outputDir
  relative : ∀ e ∈ s.manifest.entries, ¬e.output.isAbsolute
  descending : ∀ e ∈ s.manifest.entries, .up ∉ e.output.components
  apart : s.manifest.entries.Pairwise fun e e' =>
    ¬liesIn e.output.normal e'.output.normal ∧ ¬liesIn e'.output.normal e.output.normal
  sources : ∀ e ∈ s.manifest.entries, ∀ p ∈ s.wanted d e, ∀ l ∈ d.route p,
    ¬d.place s.outputDir <+: l

instance (s : Site) (d : Disk) : Decidable (s.Separate d) :=
  decidable_of_iff
    (d.isDirectory s.outputDir ∧ (∀ e ∈ s.manifest.entries, ¬e.output.isAbsolute) ∧
      (∀ e ∈ s.manifest.entries, .up ∉ e.output.components) ∧
      (s.manifest.entries.Pairwise fun e e' =>
        ¬liesIn e.output.normal e'.output.normal ∧ ¬liesIn e'.output.normal e.output.normal) ∧
      ∀ e ∈ s.manifest.entries, ∀ p ∈ s.wanted d e, ∀ l ∈ d.route p, ¬d.place s.outputDir <+: l)
    ⟨fun ⟨hdirectory, hrelative, hdescending, hapart, hsources⟩ =>
      ⟨hdirectory, hrelative, hdescending, hapart, hsources⟩,
      fun h => ⟨h.directory, h.relative, h.descending, h.apart, h.sources⟩⟩

/-- Whether the tags of entries make new names of temporary files, which are not the names
of outputs either. -/
structure Fresh (s : Site) (tag : Entry → Text) (d : Disk) : Prop where
  slash : ∀ e ∈ s.manifest.entries, '/' ∉ tag e
  vacant : ∀ e ∈ s.manifest.entries,
    d.node? (d.place (Writer.temporaryFor (s.outputPath e) (tag e))) = none
  own : ∀ e ∈ s.manifest.entries, ∀ e' ∈ s.manifest.entries,
    ¬d.place (Writer.temporaryFor (s.outputPath e) (tag e)) <+: d.place (s.outputPath e')

instance (s : Site) (tag : Entry → Text) (d : Disk) : Decidable (s.Fresh tag d) :=
  decidable_of_iff
    ((∀ e ∈ s.manifest.entries, '/' ∉ tag e) ∧
      (∀ e ∈ s.manifest.entries,
        d.node? (d.place (Writer.temporaryFor (s.outputPath e) (tag e))) = none) ∧
      ∀ e ∈ s.manifest.entries, ∀ e' ∈ s.manifest.entries,
        ¬d.place (Writer.temporaryFor (s.outputPath e) (tag e)) <+: d.place (s.outputPath e'))
    ⟨fun ⟨hslash, hvacant, hown⟩ => ⟨hslash, hvacant, hown⟩,
      fun h => ⟨h.slash, h.vacant, h.own⟩⟩

/-- There are always fresh tags : one long tag for all entries. -/
theorem exists_fresh (s : Site) (d : Disk) : ∃ tag, s.Fresh (fun _ => tag) d := by
  let names := d.nodes.flatMap Prod.fst ++
    s.manifest.entries.flatMap fun e => d.place (s.outputPath e)
  let tag : Text := List.replicate names.flatten.length '1'
  have hslash : '/' ∉ tag := fun h => nomatch (List.mem_replicate.1 h).2
  have hnew : ∀ e, ∃ folder n,
      d.place (Writer.temporaryFor (s.outputPath e) tag) = folder ++ [n] ∧ n ∉ names := by
    intro e
    have hlong : ∀ n, Disk.temporaryName n tag ∉ names := by
      intro n hmem
      have hlength := (List.sublist_flatten_of_mem hmem).length_le
      rw [Disk.length_temporaryName, List.length_replicate] at hlength
      omega
    rcases Disk.place_temporaryFor_cases d (s.outputPath e) hslash with
      ⟨n, hplace⟩ | ⟨folder, n, -, hplace⟩ <;> exact ⟨_, _, hplace, hlong n⟩
  refine ⟨tag, fun _ _ => hslash, fun e _ => ?_, fun e _ e' he' hprefix => ?_⟩
  · obtain ⟨folder, n, hplace, hn⟩ := hnew e
    rw [hplace]
    refine Option.eq_none_iff_forall_ne_some.2 fun v hv => hn (List.mem_append_left _ ?_)
    exact List.mem_flatMap.2 ⟨_, Disk.mem_nodes_of_node? hv, by simp⟩
  · obtain ⟨folder, n, hplace, hn⟩ := hnew e
    rw [hplace] at hprefix
    refine hn (List.mem_append_right _ (List.mem_flatMap.2 ⟨e', he', hprefix.subset ?_⟩))
    exact List.mem_append_right _ List.mem_cons_self

/-- One relative path that never goes up lies in another one if the steps of that lead to
it. -/
theorem liesIn_iff_steps {p q : Path} (hp : ¬p.isAbsolute) (hp' : .up ∉ p.components)
    (hq : ¬q.isAbsolute) (hq' : .up ∉ q.components) :
    liesIn p.normal q.normal ↔ q.steps <+: p.steps := by
  have hcomponents : ∀ names : List Text,
      (⟨false, 0, names⟩ : NormalPath).components = names.map .name := fun names => rfl
  rw [liesIn, List.isPrefixOf_iff_prefix, Path.normal_of_relative hp hp',
    Path.normal_of_relative hq hq', hcomponents, hcomponents]
  exact map_name_prefix_iff

namespace Separate

variable (h : s.Separate d) (he : e ∈ s.manifest.entries)
include h he

theorem isName : ∀ part ∈ e.output.steps, part.IsName := fun _ hpart =>
  ⟨Path.not_isVoid_of_mem_steps hpart,
    fun hup => (Path.components_of_descending (h.descending e he)).1 (hup ▸ hpart),
    Path.slash_notMem_of_mem_steps hpart⟩

/-- The output of an entry is reached by way of the output directory. -/
theorem reach : (s.outputPath e).steps = s.outputDir.steps ++ e.output.steps ∧
    d.reach (d.origin (s.outputPath e)) s.outputDir.steps = .ok (d.place s.outputDir) := by
  refine ⟨Path.steps_join (h.relative e he), ?_⟩
  have hfind := (Disk.isDirectory_iff.1 h.directory).1
  have hreach := (Disk.isDirectory_iff_reach (Disk.find?_eq_ok_iff.1 hfind).1).1 h.directory
  rw [Disk.origin, outputPath, Path.isAbsolute_join_of_relative (h.relative e he)]
  exact hreach

theorem reach_outputPath (hsteps : e.output.steps = []) :
    d.reach (d.origin (s.outputPath e)) (s.outputPath e).steps = .ok (d.place s.outputDir) := by
  obtain ⟨hjoined, hbase⟩ := h.reach he
  rwa [hjoined, hsteps, List.append_nil]

theorem place_outputPath : d.place (s.outputPath e) = d.place s.outputDir ++ e.output.steps :=
  Disk.place_of_steps (h.reach he).1 (h.isName he) (h.reach he).2

omit he in
theorem nodup : s.manifest.entries.Nodup := by
  refine h.apart.imp fun {e e'} hapart hsame => hapart.1 ?_
  rw [hsame, liesIn, List.isPrefixOf_iff_prefix]

theorem steps_apart {e' : Entry} (he' : e' ∈ s.manifest.entries) (hne : e ≠ e') :
    Disk.Apart e.output.steps e'.output.steps := by
  have hsymm : Std.Symm fun e e' : Entry =>
      ¬liesIn e.output.normal e'.output.normal ∧ ¬liesIn e'.output.normal e.output.normal :=
    ⟨fun _ _ => And.symm⟩
  have hapart := h.apart.forall he he' hne
  rw [liesIn_iff_steps (h.relative e he) (h.descending e he) (h.relative e' he')
    (h.descending e' he'), liesIn_iff_steps (h.relative e' he') (h.descending e' he')
    (h.relative e he) (h.descending e he)] at hapart
  exact hapart.symm

end Separate

/-! ## One entry -/

/-- Whether a disk is ahead of another one for an entry : on the way to its output, and
with the same outside the output directory. -/
structure Ahead (s : Site) (tag : Text) (d : Disk) (e : Entry) (d' : Disk) : Prop where
  output : Disk.Ahead (d.place s.outputDir) e.output.steps
    (d.place (Writer.temporaryFor (s.outputPath e) tag)) d d'
  outside : ∀ l, ¬d.place s.outputDir <+: l → d'.node? l = d.node? l

theorem Ahead.refl {tag : Text}
    (h : d.node? (d.place (Writer.temporaryFor (s.outputPath e) tag)) = none) :
    s.Ahead tag d e d :=
  ⟨.refl h, fun _ _ => rfl⟩

/-- Whether a patch is what an entry does : it is for the output of the entry, leaves the
output alone if the entry fails, and the entry has this patch and the same result on every
disk that is ahead. -/
structure IsPatch (s : Site) (tag : Text) (d : Disk) (e : Entry)
    (patch : Location → Option DiskNode) : Prop where
  fits : Disk.Fits patch (d.place s.outputDir) e.output.steps d
  failed : ∀ reason, (s.renderEntry d (.write tag) e).2 = .error reason →
    patch (d.place s.outputDir ++ e.output.steps) = none
  same : ∀ d', s.Ahead tag d e d' → Disk.Patched patch d' (s.renderEntry d' (.write tag) e).1 ∧
    (s.renderEntry d' (.write tag) e).2 = (s.renderEntry d (.write tag) e).2

namespace Separate

variable (h : s.Separate d) (he : e ∈ s.manifest.entries) (hsteps : e.output.steps ≠ [])
include h he hsteps

theorem render_of_ahead (hahead : s.Ahead tag d e d') : s.render d' e = s.render d e := by
  obtain ⟨names, n, hconcat⟩ := (List.eq_nil_or_concat' e.output.steps).resolve_left hsteps
  obtain ⟨hjoined, hbase⟩ := h.reach he
  have hnames := h.isName he
  have houtput := hahead.output
  refine render_congr houtput.current
    (fun p hp l hl => hahead.outside l (h.sources e he p hp l hl)) ?_
  rw [hconcat] at hjoined hnames houtput
  exact houtput.toOption_read hbase hjoined hnames

/-- An entry that is not written does nothing. -/
theorem isPatch_of_unwritten (hunwritten : ∀ d', s.render d' e = s.render d e →
      s.renderEntry d' (.write tag) e = (d', s.render d e)) :
    s.IsPatch tag d e fun _ => none := by
  refine ⟨nofun, fun _ _ => rfl, fun d' hahead => ?_⟩
  rw [hunwritten d' (h.render_of_ahead he hsteps hahead), hunwritten d rfl]
  exact ⟨Disk.Patched.of_sameTree (Disk.SameTree.refl d'), rfl⟩

/-- What a separate entry does is a patch. -/
theorem exists_isPatch {tag : Entry → Text} (hfresh : s.Fresh tag d) :
    ∃ patch, s.IsPatch (tag e) d e patch := by
  cases hrender : s.render d e with
  | error reason =>
    refine ⟨_, h.isPatch_of_unwritten he hsteps fun d' hd' => ?_⟩
    rw [hrender] at hd' ⊢
    exact renderEntry_of_error hd' (tag e)
  | ok a =>
    by_cases hchanged : a.isChanged
    · obtain ⟨names, n, hconcat⟩ := (List.eq_nil_or_concat' e.output.steps).resolve_left hsteps
      obtain ⟨hjoined, hbase⟩ := h.reach he
      have hnames := h.isName he
      have hvacant := hfresh.vacant e he
      have hself : s.Ahead (tag e) d e d := .refl hvacant
      rw [hconcat] at hjoined hnames
      obtain ⟨patch, hfits, hfailed, hsame⟩ := Disk.exists_patch_replaceFile hbase hjoined hnames
        (hfresh.slash e he) a.contents hvacant
      rw [← hconcat] at hfits hfailed hsame
      have hwritten : ∀ d', s.Ahead (tag e) d e d' → s.renderEntry d' (.write (tag e)) e =
          ((d'.replaceFile (s.outputPath e) (tag e) a.contents).1,
            ((d'.replaceFile (s.outputPath e) (tag e) a.contents).2.mapError
              (.unwritable (s.outputPath e))).map fun _ => a) := fun d' hahead =>
        renderEntry_of_isChanged ((h.render_of_ahead he hsteps hahead).trans hrender) hchanged
          (tag e)
      refine ⟨patch, hfits, fun reason hreason => ?_, fun d' hahead => ?_⟩
      · rw [hwritten d hself] at hreason
        cases hreplaced : (d.replaceFile (s.outputPath e) (tag e) a.contents).2 with
        | error reason' => exact hfailed reason' hreplaced
        | ok _ =>
          rw [hreplaced] at hreason
          cases hreason
      · obtain ⟨hpatched, hresult⟩ := hsame d' hahead.output
        rw [hwritten d' hahead, hwritten d hself, hresult]
        exact ⟨hpatched, rfl⟩
    · refine ⟨_, h.isPatch_of_unwritten he hsteps fun d' hd' => ?_⟩
      rw [hrender] at hd'
      rw [UpToDate.renderEntry ⟨a, hd', hchanged⟩, hd', hrender]

end Separate

/-! ## All entries -/

/-- Builds entries one after another, each with a tag of its own. -/
def renderEach (s : Site) (tag : Entry → Text) (d : Disk) :
    List Entry → Disk × List (Except SiteError Artifact)
  | [] => (d, [])
  | e :: rest =>
    let (d, result) := s.renderEntry d (.write (tag e)) e
    let (d, results) := s.renderEach tag d rest
    (d, result :: results)

/-- With one tag for all entries these are built as in a whole build. -/
theorem renderEach_const (s : Site) (tag : Text) (d : Disk) (entries : List Entry) :
    s.renderEach (fun _ => tag) d entries = s.renderAll (.write tag) d entries := by
  induction entries generalizing d with
  | nil => rfl
  | cons e rest ih => simp only [renderEach, renderAll, ih]

section Tags

variable {tag tag' : Entry → Text}

theorem Separate.exists_patches (h : s.Separate d) (hfresh : s.Fresh tag d)
    (hsteps : ∀ e ∈ s.manifest.entries, e.output.steps ≠ []) :
    ∃ patch : Entry → Location → Option DiskNode,
      ∀ e ∈ s.manifest.entries, s.IsPatch (tag e) d e (patch e) := by
  have hchoice : ∀ e, ∃ patch, e ∈ s.manifest.entries → s.IsPatch (tag e) d e patch := by
    intro e
    by_cases he : e ∈ s.manifest.entries
    · obtain ⟨patch, hpatch⟩ := h.exists_isPatch he (hsteps e he) hfresh
      exact ⟨patch, fun _ => hpatch⟩
    · exact ⟨fun _ => none, fun h => absurd h he⟩
  choose patch hpatch using hchoice
  exact ⟨patch, hpatch⟩

section

variable {patch : Entry → Location → Option DiskNode} {done rest : List Entry}

/-- Patches of entries that are merged leave the disk ahead for every other entry. -/
theorem Separate.ahead_of_merged (h : s.Separate d) (hfresh : s.Fresh tag d)
    (he : e ∈ s.manifest.entries)
    (hdone : ∀ b ∈ done, b ∈ s.manifest.entries ∧ e ≠ b ∧ s.IsPatch (tag b) d b (patch b))
    (hmerged : Disk.Merged patch done d d') : s.Ahead (tag e) d e d' := by
  refine ⟨hmerged.ahead (fun b hb => (hdone b hb).2.2.fits)
    (fun b hb => h.steps_apart he (hdone b hb).1 (hdone b hb).2.1) (hfresh.vacant e he)
    fun b hb => ?_, fun l hl => ?_⟩
  · rw [← h.place_outputPath (hdone b hb).1]
    exact hfresh.own e he b (hdone b hb).1
  · exact hmerged.kept l fun b hb =>
      Option.eq_none_iff_forall_ne_some.2 fun v hv => hl ((hdone b hb).2.2.fits.below hv)

section

variable (h : s.Separate d) (hfresh : s.Fresh tag d)
  (hpatch : ∀ e ∈ s.manifest.entries, s.IsPatch (tag e) d e (patch e))
include h hfresh hpatch

/-- One entry more merges its patch, and has the result that it would have on its own. -/
theorem Separate.merged_renderEntry (hmerged : Disk.Merged patch done d d')
    (hnodup : (done ++ [e]).Nodup) (hentries : ∀ b ∈ done ++ [e], b ∈ s.manifest.entries) :
    Disk.Merged patch (done ++ [e]) d (s.renderEntry d' (.write (tag e)) e).1 ∧
      (s.renderEntry d' (.write (tag e)) e).2 = (s.renderEntry d (.write (tag e)) e).2 := by
  have he := hentries e (List.mem_append_right _ List.mem_cons_self)
  have hdone : ∀ b ∈ done, b ∈ s.manifest.entries ∧ e ≠ b ∧ s.IsPatch (tag b) d b (patch b) := by
    intro b hb
    have hb' := hentries b (List.mem_append_left _ hb)
    refine ⟨hb', ?_, hpatch b hb'⟩
    rintro rfl
    exact (List.nodup_append.1 hnodup).2.2 e hb e List.mem_cons_self rfl
  obtain ⟨hpatched, hresult⟩ := (hpatch e he).same d' (h.ahead_of_merged hfresh he hdone hmerged)
  refine ⟨hmerged.concat hpatched fun b hb x v v' hv hv' => ?_, hresult⟩
  obtain ⟨hb', hne, hpatch'⟩ := hdone b hb
  exact (hpatch e he).fits.agree hpatch'.fits (h.steps_apart he hb' hne) hv hv'

/-- A run over more entries merges their patches, and each of them has the result that it
would have on its own. -/
theorem Separate.merged_renderAll (hmerged : Disk.Merged patch done d d')
    (hnodup : (done ++ rest).Nodup) (hentries : ∀ b ∈ done ++ rest, b ∈ s.manifest.entries) :
    Disk.Merged patch (done ++ rest) d (s.renderEach tag d' rest).1 ∧
      (s.renderEach tag d' rest).2 =
        rest.map fun e => (s.renderEntry d (.write (tag e)) e).2 := by
  induction rest generalizing done d' with
  | nil =>
    rw [List.append_nil]
    exact ⟨hmerged, rfl⟩
  | cons e rest ih =>
    rw [List.append_cons] at hnodup hentries ⊢
    obtain ⟨hnext, hresult⟩ := h.merged_renderEntry hfresh hpatch hmerged
      (List.nodup_append.1 hnodup).1 fun b hb => hentries b (List.mem_append_left _ hb)
    obtain ⟨hrest, hresults⟩ := ih hnext hnodup hentries
    simp only [renderEach, List.map_cons]
    exact ⟨hrest, by rw [hresults, hresult]⟩

/-- When the patches of all entries are merged, the output of an entry that succeeds holds
its contents. -/
theorem Separate.read_of_merged (he : e ∈ s.manifest.entries)
    (hmerged : Disk.Merged patch s.manifest.entries d d')
    (hok : (s.renderEntry d (.write (tag e)) e).2 = .ok a) :
    d'.read (s.outputPath e) = .ok a.contents := by
  -- The same tree comes about when the entry is the last one.
  have hperm : (s.manifest.entries.erase e ++ [e]).Perm s.manifest.entries :=
    (List.perm_append_singleton e _).trans (List.perm_cons_erase he).symm
  have hnodup := hperm.nodup_iff.2 h.nodup
  have hentries : ∀ b ∈ s.manifest.entries.erase e ++ [e], b ∈ s.manifest.entries := fun _ =>
    hperm.mem_iff.1
  obtain ⟨hothers, -⟩ := h.merged_renderAll hfresh hpatch (Disk.Merged.nil patch d)
    (List.nodup_append.1 hnodup).1 fun b hb => hentries b (List.mem_append_left _ hb)
  obtain ⟨hlast, hresult⟩ := h.merged_renderEntry hfresh hpatch hothers hnodup hentries
  rw [← (hmerged.sameTree hlast hperm.symm fun _ _ _ => rfl).read_eq]
  exact read_outputPath_of_ok (hresult.trans hok)

omit hfresh in
/-- When the patches of all entries are merged, nothing has changed at the output of an
entry that fails, or below. -/
theorem Separate.node?_of_merged (he : e ∈ s.manifest.entries)
    (hmerged : Disk.Merged patch s.manifest.entries d d') {reason : SiteError}
    (hfailed : (s.renderEntry d (.write (tag e)) e).2 = .error reason) {l : Location}
    (hl : d.place (s.outputPath e) <+: l) : d'.node? l = d.node? l := by
  rw [h.place_outputPath he] at hl
  refine hmerged.kept l fun b hb => Option.eq_none_iff_forall_ne_some.2 fun v hv => ?_
  have hbelow := hl.trans ((hpatch b hb).fits.isPrefix hv)
  by_cases hne : e = b
  · subst hne
    -- What is on the way to an output, and below it, is the output.
    obtain rfl := hl.eq_of_length_le ((hpatch e he).fits.isPrefix hv).length_le
    rw [(hpatch e he).failed reason hfailed] at hv
    cases hv
  · exact (h.steps_apart he hb hne).1 ((List.prefix_append_right_inj _).1 hbelow)

end

/-- An entry whose output leads to the output directory itself has no others beside it. -/
theorem Separate.entries_eq_singleton (h : s.Separate d) (he : e ∈ s.manifest.entries)
    (hsteps : e.output.steps = []) : s.manifest.entries = [e] := by
  have hall : ∀ b ∈ s.manifest.entries, b = e := by
    intro b hb
    refine Classical.byContradiction fun hne => ?_
    refine (h.steps_apart he hb (Ne.symm hne)).1 ?_
    rw [hsteps]
    exact List.nil_prefix
  refine List.perm_singleton.1
    ((List.perm_ext_iff_of_nodup h.nodup (List.pairwise_singleton _ e)).2 fun b => ?_)
  rw [List.mem_singleton]
  exact ⟨hall b, fun hb => hb ▸ he⟩

/-- An entry whose output leads to the output directory itself changes nothing if it
fails. -/
theorem Separate.sameTree_of_failed (h : s.Separate d) (hfresh : s.Fresh tag d)
    (he : e ∈ s.manifest.entries) (hsteps : e.output.steps = []) {reason : SiteError}
    (hfailed : (s.renderEntry d (.write (tag e)) e).2 = .error reason) :
    Disk.SameTree d (s.renderEntry d (.write (tag e)) e).1 := by
  cases hrender : s.render d e with
  | error reason' =>
    rw [renderEntry_of_error hrender]
    exact Disk.SameTree.refl d
  | ok a =>
    by_cases hchanged : a.isChanged
    · rw [renderEntry_of_isChanged hrender hchanged] at hfailed ⊢
      cases hreplaced : (d.replaceFile (s.outputPath e) (tag e) a.contents).2 with
      | error reason' =>
        exact Disk.sameTree_replaceFile_of_reach (h.reach_outputPath he hsteps)
          (hfresh.vacant e he) hreplaced
      | ok _ =>
        rw [hreplaced] at hfailed
        cases hfailed
    · rw [UpToDate.renderEntry ⟨a, hrender, hchanged⟩]
      exact Disk.SameTree.refl d

/-- A fresh tag can make the temporary file of an entry. -/
theorem Separate.serves (h : s.Separate d) (hfresh : s.Fresh tag d) (he : e ∈ s.manifest.entries)
    (hmade : (d.makeFolders (s.outputPath e)).2 = .ok ()) :
    Disk.Serves (tag e) (s.outputPath e) (d.makeFolders (s.outputPath e)).1 := by
  by_cases hsteps : e.output.steps = []
  · exact Disk.serves_of_reach (h.reach_outputPath he hsteps) (hfresh.slash e he)
      (hfresh.vacant e he)
  · obtain ⟨names, n, hconcat⟩ := (List.eq_nil_or_concat' e.output.steps).resolve_left hsteps
    obtain ⟨hjoined, hbase⟩ := h.reach he
    have hnames := h.isName he
    rw [hconcat] at hjoined hnames
    exact Disk.serves_of_makeFolders hbase hjoined hnames (hfresh.slash e he)
      (hfresh.vacant e he) hmade

end

/-- An entry has the same result and leaves the same tree with another tag. -/
theorem Separate.renderEntry_of_tagsAlike (h : s.Separate d) (hfresh : s.Fresh tag d)
    (hfresh' : s.Fresh tag' d) (halike : ∀ e ∈ s.manifest.entries, (tag e).Alike (tag' e))
    (he : e ∈ s.manifest.entries) :
    (s.renderEntry d (.write (tag' e)) e).2 = (s.renderEntry d (.write (tag e)) e).2 ∧
      Disk.SameTree (s.renderEntry d (.write (tag e)) e).1
        (s.renderEntry d (.write (tag' e)) e).1 := by
  cases hrender : s.render d e with
  | error reason =>
    rw [renderEntry_of_error hrender, renderEntry_of_error hrender]
    exact ⟨rfl, Disk.SameTree.refl d⟩
  | ok a =>
    by_cases hchanged : a.isChanged
    · obtain ⟨hresult, hsame⟩ := Disk.replaceFile_of_tagsAlike (halike e he) (h.serves hfresh he)
        (h.serves hfresh' he) a.contents
      rw [renderEntry_of_isChanged hrender hchanged, renderEntry_of_isChanged hrender hchanged,
        hresult]
      exact ⟨rfl, hsame⟩
    · have hidle : s.UpToDate d e := ⟨a, hrender, hchanged⟩
      rw [hidle.renderEntry, hidle.renderEntry]
      exact ⟨rfl, Disk.SameTree.refl d⟩

/-- The order of separate entries makes no difference, and neither do their tags. In every
order each entry gives the same artifact or the same error that it gives on its own, and the
tree is the same in the end : the output of an entry that succeeds holds its contents, and
where the output of an entry that fails would be nothing has changed. -/
theorem render_in_any_order (h : s.Separate d) (hfresh : s.Fresh tag d)
    (hfresh' : s.Fresh tag' d) (halike : ∀ e ∈ s.manifest.entries, (tag e).Alike (tag' e))
    (horder : order.Perm s.manifest.entries) :
    let result := fun e => (s.renderEntry d (.write (tag e)) e).2
    let final := (s.renderEach tag' d order).1
    (s.renderEach tag' d order).2 = order.map result ∧
    Disk.SameTree (s.renderEach tag d s.manifest.entries).1 final ∧
    ∀ e ∈ s.manifest.entries,
      (∀ a, result e = .ok a → final.read (s.outputPath e) = .ok a.contents) ∧
      ∀ reason, result e = .error reason →
        ∀ l, d.place (s.outputPath e) <+: l → final.node? l = d.node? l := by
  intro result final
  have htags := fun {e : Entry} (he : e ∈ s.manifest.entries) =>
    h.renderEntry_of_tagsAlike hfresh hfresh' halike he
  by_cases hsteps : ∃ e ∈ s.manifest.entries, e.output.steps = []
  · obtain ⟨e, he, hnil⟩ := hsteps
    obtain ⟨hresult, hsame⟩ := htags he
    have hsingle := h.entries_eq_singleton he hnil
    rw [hsingle] at horder ⊢
    obtain rfl := List.perm_singleton.1 horder
    refine ⟨congrArg (fun x => [x]) hresult, hsame, fun b hb => ?_⟩
    obtain rfl := List.mem_singleton.1 hb
    exact ⟨fun a ha => read_outputPath_of_ok (hresult.trans ha), fun reason hreason l _ =>
      (h.sameTree_of_failed hfresh' he hnil (hresult.trans hreason)).node l⟩
  · have hother := fun e he hnil => hsteps ⟨e, he, hnil⟩
    obtain ⟨patch, hpatch⟩ := h.exists_patches hfresh hother
    obtain ⟨patch', hpatch'⟩ := h.exists_patches hfresh' hother
    obtain ⟨hmerged, -⟩ := h.merged_renderAll hfresh hpatch (Disk.Merged.nil patch d) h.nodup
      fun _ => id
    obtain ⟨hmerged', hresults⟩ := h.merged_renderAll hfresh' hpatch' (Disk.Merged.nil patch' d)
      (horder.nodup_iff.2 h.nodup) fun _ => horder.mem_iff.1
    -- On their own, the entries come to the same patches with either tag.
    have hpatches : ∀ e ∈ [] ++ s.manifest.entries, ∀ x,
        (patch' e x).or (d.node? x) = (patch e x).or (d.node? x) := by
      intro e he x
      have hself := (hpatch e he).same d (.refl (hfresh.vacant e he))
      have hself' := (hpatch' e he).same d (.refl (hfresh'.vacant e he))
      rw [← hself.1.node, ← hself'.1.node, (htags he).2.node]
    have hsame := hmerged.sameTree hmerged' horder.symm hpatches
    refine ⟨hresults.trans (List.map_congr_left fun e he => (htags (horder.mem_iff.1 he)).1),
      hsame, fun e he => ⟨fun a ha => ?_, fun reason hreason l hl => ?_⟩⟩
    · rw [hsame.read_eq, h.read_of_merged hfresh hpatch he hmerged ha]
    · rw [hsame.node, h.node?_of_merged hpatch he hmerged hreason hl]

end Tags

/-- A project of which two entries share a new directory. Of the others one would replace a
directory, one lies below a file, and one has no input. -/
def obstructedPages : Disk :=
  .ofFiles [
    ("/p/site-description/out.txt",
      "page > $ > blog/page\nraw > = > blog/./raw\nraw > = > kept\nraw > = > old/raw\nx > $ > x\n"),
    ("/p/site-description/page", "$<inherit layout>$$<fill title>$Home"),
    ("/p/site-description/layout", "<h1>$<slot title>$</h1>\n"),
    ("/p/site-description/raw", "raw\n"),
    ("/p/site/kept/page", "old\n"),
    ("/p/site/old", "old\n")]

/-- The entries of this project may as well be rendered from the last one to the first, with
other temporary files, whose tags are as long as the outputs are. -/
theorem render_in_any_order_obstructedPages : ∃ s,
    let tag : Entry → Text := fun e => e.output.text.map fun _ => '1'
    let tag' : Entry → Text := fun e => e.output.text.map fun _ => '2'
    load obstructedPages (.ofString "/p") = .ok s ∧
    s.Separate obstructedPages ∧ s.Fresh tag obstructedPages ∧ s.Fresh tag' obstructedPages ∧
    (∀ e ∈ s.manifest.entries, (tag e).Alike (tag' e)) ∧
    s.manifest.entries.reverse.Perm s.manifest.entries ∧
    let backwards := s.renderEach tag' obstructedPages s.manifest.entries.reverse
    backwards.2.map Except.isOk = [false, false, false, true, true] ∧
    backwards.2 = s.manifest.entries.reverse.map (fun e =>
      (s.renderEntry obstructedPages (.write (tag e)) e).2) ∧
    Disk.SameTree (s.renderEach tag obstructedPages s.manifest.entries).1 backwards.1 := by
  let tag : Entry → Text := fun e => e.output.text.map fun _ => '1'
  let tag' : Entry → Text := fun e => e.output.text.map fun _ => '2'
  have hsite : (load obstructedPages (.ofString "/p")).toOption.any fun s =>
      decide (s.Separate obstructedPages ∧ s.Fresh tag obstructedPages ∧
        s.Fresh tag' obstructedPages ∧ (∀ e ∈ s.manifest.entries, (tag e).Alike (tag' e)) ∧
        (s.renderEach tag' obstructedPages s.manifest.entries.reverse).2.map Except.isOk =
          [false, false, false, true, true]) := by
    decide +kernel
  obtain ⟨s, hload, hs⟩ := exists_of_any_toOption hsite
  obtain ⟨hseparate, hfresh, hfresh', halike, hok⟩ := of_decide_eq_true hs
  have hperm := List.reverse_perm s.manifest.entries
  obtain ⟨hresults, hsame, -⟩ := render_in_any_order hseparate hfresh hfresh' halike hperm
  exact ⟨s, hload, hseparate, hfresh, hfresh', halike, hperm, hok, hresults, hsame⟩

end Site

end Folio
