import Folio.Proofs.Disk.Frame
import Folio.Site.Basic

/-!
# What loading a site depends on

A site is loaded from the files that `Site.settings` names : the places of the
configuration, the manifest and the file of global variables. It is loaded again after a
change that touches none of these (`Site.load_of_frame`).

The places of the configuration matter even where no file stands : a file that appears at
one of them would be taken for the configuration. That none appears follows from the
directory that the project is loaded from, which is found (`Site.isDirectory_of_load`).
-/

namespace Folio

variable {d d' : Disk} {root p q : Path} {s : Site}
  {touched removed : Location → Prop}

namespace Config

/-- The files that the settings and the manifest of a project come from : the places of
the configuration, the manifest, and the file of global variables. -/
def settings (c : Config) (root : Path) : List Path :=
  places.map root.join ++
    c.manifestPath root :: (c.globals.toList.map fun file => (c.descriptionDir root).join file.path)

/-- The places of the configuration are spelled by names. -/
theorem isName_of_mem_places :
    ∀ q ∈ places, ∀ n ∈ q.text.splitOn '/', Text.IsName n := by
  decide

theorem find?_eq_some (h : find? d root = some p) : d.isFile p ∧ p ∈ places.map root.join :=
  ⟨List.find?_some h, List.mem_of_find?_eq_some h⟩

/-- The configuration depends on which of its places have a file, and on that file. -/
theorem load_congr (hfile : ∀ p ∈ places.map root.join, d'.isFile p = d.isFile p)
    (hread : ∀ p ∈ places.map root.join, ∀ c, d.read p = .ok c → d'.read p = d.read p) :
    load d' root = load d root := by
  have hfind : find? d' root = find? d root := by
    rw [find?, find?, ← List.head?_filter, ← List.head?_filter, List.filter_congr hfile]
  rw [load, load, load?, load?, hfind]
  cases hfound : find? d root with
  | none => rfl
  | some p =>
    obtain ⟨hp, hmem⟩ := find?_eq_some hfound
    obtain ⟨c, hc⟩ := Disk.isFile_iff.1 hp
    dsimp only
    rw [Disk.readText_congr (hread p hmem c hc)]

/-- The global variables depend on their file, if there is one. -/
theorem loadGlobals_congr {config : Config} {globals : Scope}
    (h : config.loadGlobals d root = .ok globals)
    (hread : ∀ file, config.globals = some file → ∀ c,
      d.read ((config.descriptionDir root).join file.path) = .ok c →
        d'.read ((config.descriptionDir root).join file.path) =
          d.read ((config.descriptionDir root).join file.path)) :
    config.loadGlobals d' root = .ok globals := by
  unfold loadGlobals at h ⊢
  cases hfile : config.globals with
  | none =>
    rw [hfile] at h
    exact h
  | some file =>
    rw [hfile] at h
    obtain ⟨fromFile, hfromFile, hrest⟩ := bind_eq_ok_iff.1 h
    refine bind_eq_ok_iff.2 ⟨fromFile, ?_, hrest⟩
    unfold loadFile at hfromFile ⊢
    cases htext : d.readText ((config.descriptionDir root).join file.path) with
    | error reason =>
      rw [htext] at hfromFile
      cases hfromFile
    | ok content =>
      obtain ⟨c, hc⟩ := Disk.exists_read_of_readText htext
      rw [Disk.readText_congr (hread file hfile c hc)]
      exact hfromFile

end Config

namespace Manifest

theorem exists_read_of_load {m : Manifest} (h : load d p = .ok m) : ∃ c, d.read p = .ok c := by
  unfold load at h
  split at h
  · rename_i content hread
    exact Disk.exists_read_of_readText hread
  · cases h

end Manifest

namespace Site

/-- The files that the site is loaded from. -/
def settings (s : Site) : List Path :=
  s.config.settings s.root

theorem load_eq_ok (h : load d root = .ok s) : s.root = root ∧
    Config.load d root = .ok s.config ∧
    Manifest.load d (s.config.manifestPath root) = .ok s.manifest ∧
    s.config.loadGlobals d root = .ok s.globals := by
  obtain ⟨config, hconfig, h⟩ := bind_eq_ok_iff.1 h
  obtain ⟨manifest, hmanifest, h⟩ := bind_eq_ok_iff.1 h
  obtain ⟨globals, hglobals, h⟩ := bind_eq_ok_iff.1 h
  cases h
  exact ⟨rfl, hconfig, hmanifest, hglobals⟩

/-- A site is loaded from a directory that is found, unless its path is empty. -/
theorem isDirectory_of_load (h : load d root = .ok s) (hroot : root.text ≠ []) :
    d.isDirectory root := by
  obtain ⟨-, hconfig, hmanifest, -⟩ := load_eq_ok h
  cases hfound : Config.find? d root with
  | some p =>
    obtain ⟨hfile, hmem⟩ := Config.find?_eq_some hfound
    obtain ⟨q, hq, rfl⟩ := List.mem_map.1 hmem
    obtain ⟨c, hc⟩ := Disk.isFile_iff.1 hfile
    have hrel : ¬q.isAbsolute := Path.not_isAbsolute_of_isName (Config.isName_of_mem_places q hq)
    exact Disk.isDirectory_of_find?_join hroot hrel (Disk.read_eq_ok_iff.1 hc).1
  | none =>
    -- By default the manifest stands below the root.
    have hdefault : s.config = {} := by
      rw [Config.load, Config.load?, hfound] at hconfig
      exact (Except.ok.inj hconfig).symm
    rw [hdefault] at hmanifest
    obtain ⟨c, hc⟩ := Manifest.exists_read_of_load hmanifest
    have hmanifest' := (Disk.read_eq_ok_iff.1 hc).1
    have hdescription : ((root.join (.ofString "site-description")).text) ≠ [] :=
      Path.text_join_ne_nil hroot (by decide)
    have hfolder := Disk.isDirectory_of_find?_join hdescription (by decide) hmanifest'
    exact Disk.isDirectory_of_find?_join hroot (by decide) (Disk.isDirectory_iff.1 hfolder).1

/-- A site is loaded again after a change that touches none of the files that it was
loaded from. -/
theorem load_of_frame (h : load d root = .ok s) (hroot : root.text ≠ [])
    (hframe : Disk.Frame touched removed d d')
    (hkept : ∀ p ∈ s.settings, ¬touched (d.place p)) : load d' root = .ok s := by
  obtain ⟨rfl, hconfig, hmanifest, hglobals⟩ := load_eq_ok h
  have hdir : d.isDirectory s.root := isDirectory_of_load h hroot
  have hread : ∀ p ∈ s.settings, ∀ c, d.read p = .ok c → d'.read p = d.read p := by
    intro p hp c hc
    rw [hc, hframe.read hc (hkept p hp)]
  have hplaces : ∀ p ∈ Config.places.map s.root.join, p ∈ s.settings := fun p hp =>
    List.mem_append_left _ hp
  have hconfig' : Config.load d' s.root = .ok s.config := by
    rw [← hconfig]
    refine Config.load_congr (fun p hp => ?_) fun p hp => hread p (hplaces p hp)
    obtain ⟨q, hq, rfl⟩ := List.mem_map.1 hp
    exact Bool.eq_iff_iff.2 (hframe.isFile_join_iff hdir hroot
      (Config.isName_of_mem_places q hq) (hkept _ (hplaces _ hp)))
  have hmanifest' : Manifest.load d' (s.config.manifestPath s.root) = .ok s.manifest := by
    obtain ⟨c, hc⟩ := Manifest.exists_read_of_load hmanifest
    have hmem : s.config.manifestPath s.root ∈ s.settings :=
      List.mem_append_right _ List.mem_cons_self
    rw [Manifest.load, Disk.readText_congr (hread _ hmem c hc)]
    exact hmanifest
  have hglobals' : s.config.loadGlobals d' s.root = .ok s.globals := by
    refine Config.loadGlobals_congr hglobals fun file hfile => hread _ ?_
    refine List.mem_append_right _ (List.mem_cons_of_mem _ (List.mem_map_of_mem ?_))
    exact Option.mem_toList.2 hfile
  exact bind_eq_ok_iff.2 ⟨_, hconfig', bind_eq_ok_iff.2 ⟨_, hmanifest',
    bind_eq_ok_iff.2 ⟨_, hglobals', rfl⟩⟩⟩

end Site

end Folio
