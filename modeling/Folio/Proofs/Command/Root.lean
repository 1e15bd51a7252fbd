import Folio.Command.Run
import Folio.Proofs.Site.Load

/-!
# The root directory of a command

A command line names its project by a path that is not empty (`CommandLine.path_of_parse`),
or means the current directory. Wherever a site is loaded from there, its root is absolute
(`CommandLine.isAbsolute_root`), and it stays the same as long as no directory goes
(`CommandLine.projectRoot_of_frame`).
-/

namespace Folio

namespace CommandLine

/-! ## The path that is named -/

namespace Given

variable {g g' : Given}

/-- Whether the path, if one is given, has a text. -/
def Named (g : Given) : Prop :=
  g.path ≠ some []

theorem named_setPath {value : Text} (h : g.setPath value = .ok g') : g'.Named := by
  unfold setPath at h
  split at h
  · cases h
  split at h
  · cases h
  · rename_i hvalue
    cases h
    intro hpath
    rw [Option.some.inj hpath] at hvalue
    exact hvalue rfl

theorem Named.settle (hg : g.Named) (h : g.settle = .ok g') : g'.Named := by
  unfold Given.settle at h
  split at h
  · cases h
    exact hg
  · cases h
  · exact named_setPath h

theorem Named.take {o : Opt} {attached : Option Text} (hg : g.Named)
    (h : g.take o attached = .ok g') : g'.Named := by
  unfold Given.take at h
  split at h
  · obtain ⟨settled, -, hset⟩ := bind_eq_ok_iff.1 h
    exact named_setPath hset
  · obtain ⟨settled, hsettle, hset⟩ := bind_eq_ok_iff.1 h
    have hsettled : settled.Named := hg.settle hsettle
    cases hset
    exact hsettled
  · cases h
  · obtain ⟨settled, hsettle, hset⟩ := bind_eq_ok_iff.1 h
    have hsettled : settled.Named := hg.settle hsettle
    split at hset <;> cases hset
    exact hsettled
  · obtain ⟨settled, -, hset⟩ := bind_eq_ok_iff.1 h
    cases hset
  · obtain ⟨settled, -, hset⟩ := bind_eq_ok_iff.1 h
    cases hset

theorem Named.takeLetters {s : Side} {letters : Text} (hg : g.Named)
    (h : takeLetters s g letters = .ok g') : g'.Named := by
  induction letters generalizing g with
  | nil =>
    cases h
    exact hg
  | cons c rest ih =>
    unfold Given.takeLetters at h
    split at h
    · cases h
    · split at h <;> exact hg.take h
    · obtain ⟨taken, htake, hrest⟩ := bind_eq_ok_iff.1 h
      exact ih (hg.take htake) hrest

theorem Named.takeLong {s : Side} {word : Text} (hg : g.Named)
    (h : takeLong s g word = .ok g') : g'.Named := by
  unfold Given.takeLong at h
  dsimp only at h
  split at h
  · cases h
  · exact hg.take h

end Given

theorem named_readSide {s : Side} {g g' : Given} {words : List Text} {sideEnd : SideEnd}
    (hg : g.Named) (h : readSide s g words = .ok (g', sideEnd)) : g'.Named := by
  induction words generalizing g with
  | nil =>
    cases h
    exact hg
  | cons word rest ih =>
    unfold readSide at h
    split at h
    · split at h
      · cases h
        exact hg
      · cases h
    · obtain ⟨taken, htake, hrest⟩ := bind_eq_ok_iff.1 h
      exact ih (hg.takeLong htake) hrest
    · obtain ⟨taken, htake, hrest⟩ := bind_eq_ok_iff.1 h
      exact ih (hg.takeLetters htake) hrest
    · refine ih ?_ h
      exact hg
    · dsimp only at h
      split at h
      · cases h
      · split at h
        · cases h
        split at h
        · cases h
          exact hg
        · cases h

/-- A command line never names the empty path. -/
theorem path_of_parse {words : List Text} {line : CommandLine} (h : parse words = .ok line) :
    line.path ≠ some ⟨[]⟩ := by
  have hempty : ({} : Given).Named := nofun
  have hsides : ∀ (command : Option Command) {front behind : Given}, front.Named →
      behind.Named → (ofSides command front behind).path ≠ some ⟨[]⟩ := by
    intro command front behind hfront hbehind hpath
    obtain ⟨text, htext, hnil⟩ := Option.map_eq_some_iff.1 hpath
    cases hnil
    cases hb : behind.path with
    | some value =>
      rw [hb] at htext
      exact hbehind (hb.trans htext)
    | none =>
      rw [hb] at htext
      exact hfront htext
  obtain ⟨⟨front, sideEnd⟩, hread, h⟩ := bind_eq_ok_iff.1 h
  have hfront : front.Named := named_readSide hempty hread
  cases sideEnd with
  | words =>
    obtain ⟨settled, hsettle, h⟩ := bind_eq_ok_iff.1 h
    cases h
    exact hsides none (hfront.settle hsettle) hempty
  | command name rest =>
    obtain ⟨⟨behind, end'⟩, hread', h⟩ := bind_eq_ok_iff.1 h
    obtain ⟨settledBehind, hbehind, h⟩ := bind_eq_ok_iff.1 h
    obtain ⟨settledFront, hsettle, h⟩ := bind_eq_ok_iff.1 h
    cases h
    exact hsides _ (hfront.settle hsettle) ((named_readSide hempty hread').settle hbehind)

end CommandLine

/-! ## The root as it is spelled out -/

namespace CommandLine

variable {line : CommandLine} {d d' : Disk} {s : Site} {touched removed : Location → Prop}

/-- The path that a command line starts from : the one that is named, or the current
directory. -/
def startPath (line : CommandLine) (d : Disk) : Path :=
  line.path.getD (Disk.normalOf d.current).toPath

theorem projectRoot_eq (line : CommandLine) (d : Disk) : line.projectRoot d =
    match d.find? (line.startPath d) with
    | .ok l => (Disk.normalOf l).toPath
    | .error _ => line.startPath d :=
  rfl

/-- Where a site is loaded, the path that the command line starts from is found, and is
spelled out from the root. -/
theorem find?_startPath (hpath : line.path ≠ some ⟨[]⟩)
    (hload : Site.load d (line.projectRoot d) = .ok s) :
    ∃ l, d.find? (line.startPath d) = .ok l ∧
      line.projectRoot d = (Disk.normalOf l).toPath := by
  cases hfind : d.find? (line.startPath d) with
  | ok l =>
    exact ⟨l, rfl, by rw [projectRoot_eq, hfind]⟩
  | error reason =>
    have hroot : line.projectRoot d = line.startPath d := by rw [projectRoot_eq, hfind]
    have hne : (line.startPath d).text ≠ [] := by
      intro hnil
      cases hgiven : line.path with
      | none =>
        rw [startPath, hgiven] at hnil
        cases hnil
      | some p =>
        rw [startPath, hgiven, Option.getD_some] at hnil
        refine hpath ?_
        rw [hgiven, ← hnil]
    rw [hroot] at hload
    have hfound := (Disk.isDirectory_iff.1 (Site.isDirectory_of_load hload hne)).1
    rw [hfind] at hfound
    cases hfound

theorem isAbsolute_root (hpath : line.path ≠ some ⟨[]⟩)
    (hload : Site.load d (line.projectRoot d) = .ok s) : s.root.isAbsolute := by
  obtain ⟨l, -, hroot⟩ := find?_startPath hpath hload
  rw [(Site.load_eq_ok hload).1, hroot]
  exact Disk.isAbsolute_toPath l

/-- After a change that keeps the directories a command line means the same root. -/
theorem projectRoot_of_frame (hpath : line.path ≠ some ⟨[]⟩)
    (hcurrent : ∀ n ∈ d.current, n.IsName)
    (hload : Site.load d (line.projectRoot d) = .ok s)
    (hframe : Disk.Frame touched removed d d') : line.projectRoot d' = line.projectRoot d := by
  obtain ⟨l, hfind, hroot⟩ := find?_startPath hpath hload
  have hnames : ∀ n ∈ l, n.IsName := by
    rw [Disk.find?_eq_ok hfind]
    exact fun n hn => Disk.isName_of_mem_place (Or.inr hcurrent) hn
  have hdir : d.node? l = some .directory := by
    rw [hroot] at hload
    have hdirectory := (Disk.isDirectory_iff.1 (Site.isDirectory_of_load hload nofun)).2
    rwa [Disk.place_toPath hnames] at hdirectory
  have hstart : line.startPath d' = line.startPath d := by
    rw [startPath, startPath, hframe.current]
  have hfind' : d'.find? (line.startPath d') = .ok l := by
    rw [hstart]
    exact hframe.find? hfind (by rw [hframe.directory hdir]; rfl)
  rw [hroot, projectRoot_eq, hfind']

/-- A command line loads the same site again if its root holds the same site. -/
theorem load_projectRoot_again (hpath : line.path ≠ some ⟨[]⟩)
    (hcurrent : ∀ n ∈ d.current, n.IsName) (hload : Site.load d (line.projectRoot d) = .ok s)
    (hframe : Disk.Frame touched removed d d')
    (hagain : Site.load d s.root = .ok s → Site.load d' s.root = .ok s) :
    Site.load d' (line.projectRoot d') = .ok s := by
  have hroot : s.root = line.projectRoot d := (Site.load_eq_ok hload).1
  rw [projectRoot_of_frame hpath hcurrent hload hframe, ← hroot]
  refine hagain ?_
  rw [hroot]
  exact hload

end CommandLine

end Folio
