import Folio.Proofs.Disk.Find
import Folio.Proofs.Path.Normal
import Folio.Site.Prune
import Folio.Watch.Filter

/-!
# Changes below the output directory

A watch filter compares a path with the output directory as it is configured, component by
component. Pruning compares normal forms. For a path that never goes up the two agree
unless the output directory is spelled with a step up, and then nothing begins with it
(`Path.startsWith_iff_normalize`).

`Site.watchFilter_ignores_iff` : of a path without detours in the directory that pruning
takes for the output directory, changes are dropped if no step up is in the configured path,
and otherwise only if an ignore pattern matches. Only the description directory is watched, so
this matters to projects whose output directory lies in it : `Site.detour_relevant` is one for
which an output that is written calls for a new build.
-/

namespace Folio

namespace Path

variable {p q : Path}

theorem components_normalize (p : Path) : p.normalize.components = p.normal.components := by
  rw [normalize_eq_toPath, NormalPath.components_toPath (wellFormed_normal p)]

/-- A path from the root that never goes up has the components of its normal form. -/
theorem components_normal_of_descending (habs : p.isAbsolute) (hup : .up ∉ p.components) :
    p.normal.components = p.components := by
  have hcomponents := (components_of_descending hup).2
  rw [isAbsolute_iff_split.1 habs] at hcomponents
  rw [normal, hcomponents, List.foldl_append, foldl_step_names]
  rfl

theorem up_notMem_of_normalize_eq (habs : p.isAbsolute) (h : p.normalize = p) :
    .up ∉ p.components := by
  have hstraight : p.Straight := by
    rw [← h, normalize_eq_toPath]
    exact straight_toPath (wellFormed_normal p)
  intro hup
  obtain ⟨before, after, hsplit⟩ := List.append_of_mem hup
  exact (hstraight.ups before after hsplit).1 habs

/-- What a path without steps up begins with has no step up either. -/
theorem startsWith_iff_normalize (hp : .up ∉ p.components) (hq : q.isAbsolute) :
    p.startsWith q ↔ .up ∉ q.components ∧ p.startsWith q.normalize := by
  simp only [startsWith, List.isPrefixOf_iff_prefix, components_normalize]
  constructor
  · intro hfront
    have hup : .up ∉ q.components := fun hup => hp (hfront.subset hup)
    rw [components_normal_of_descending hq hup]
    exact ⟨hup, hfront⟩
  · rintro ⟨hup, hfront⟩
    rwa [components_normal_of_descending hq hup] at hfront

end Path

namespace Site

variable {s : Site} {f : WatchFilter} {p : Path}

theorem watchFilter_eq_ok_iff : s.watchFilter = .ok f ↔
    IgnoreSet.ofPatterns s.config.watch.ignore = .ok f.ignore ∧
      f.descriptionDir = s.descriptionDir ∧ f.outputDir = s.outputDir := by
  obtain ⟨descriptionDir, outputDir, ignore⟩ := f
  unfold watchFilter
  split <;> rename_i hread <;> rw [hread]
  · simp only [Except.ok.injEq, WatchFilter.mk.injEq]
    grind
  · simp

/-- Whether an ignore pattern matches a path. -/
def Matched (s : Site) (f : WatchFilter) (p : Path) : Prop :=
  f.ignore.accepts ((p.relativeTo? s.descriptionDir).getD p)

/-- Whether a path without detours is the output directory or lies below it. -/
structure InOutput (s : Site) (p : Path) : Prop where
  isAbsolute : p.isAbsolute
  straight : p.normalize = p
  below : p.startsWith s.outputDir.normalize

theorem ignores_iff_of_inOutput (hroot : s.root.isAbsolute) (hf : s.watchFilter = .ok f)
    (hp : s.InOutput p) : f.ignores p ↔ .up ∉ s.outputDir.components ∨ s.Matched f p := by
  obtain ⟨-, hdescription, houtput⟩ := watchFilter_eq_ok_iff.1 hf
  have hup := Path.up_notMem_of_normalize_eq hp.isAbsolute hp.straight
  have hbegins := Path.startsWith_iff_normalize (q := s.outputDir) hup (Path.isAbsolute_join hroot)
  rw [WatchFilter.ignores, Bool.or_eq_true, houtput, hdescription, hbegins,
    and_iff_left hp.below, Matched]

/-- A path lies in the output directory exactly when pruning would say so. -/
theorem inOutput_iff_liesIn (hroot : s.root.isAbsolute) (d : Disk) : s.InOutput p ↔
    p.isAbsolute ∧ p.normalize = p ∧ liesIn p.normal (d.resolve s.outputDir) := by
  have houtput : s.outputDir.isAbsolute := Path.isAbsolute_join hroot
  have hbelow : p.normalize = p →
      (p.startsWith s.outputDir.normalize ↔ liesIn p.normal (d.resolve s.outputDir)) := by
    intro h
    have hcomponents : p.components = p.normal.components := by
      rw [← Path.components_normalize, h]
    rw [Disk.resolve_eq_place houtput, ← Disk.normal_eq_place houtput, Path.startsWith, liesIn,
      Path.components_normalize, hcomponents]
  constructor
  · rintro ⟨habs, hstraight, h⟩
    exact ⟨habs, hstraight, (hbelow hstraight).1 h⟩
  · rintro ⟨habs, hstraight, h⟩
    exact ⟨habs, hstraight, (hbelow hstraight).2 h⟩

/-- The output directory is what pruning takes for it. Changes there are dropped if no step
up is in the configured path ; if there is one, a change is dropped only if all paths that
it touches match an ignore pattern. -/
theorem watchFilter_ignores_iff (hroot : s.root.isAbsolute) (hf : s.watchFilter = .ok f) :
    (∀ (d : Disk) p, s.InOutput p ↔
      p.isAbsolute ∧ p.normalize = p ∧ liesIn p.normal (d.resolve s.outputDir)) ∧
    (∀ p, s.InOutput p → (f.ignores p ↔ .up ∉ s.outputDir.components ∨ s.Matched f p)) ∧
    ∀ change : Change, (∀ p ∈ change.paths, s.InOutput p) →
      (f.isRelevant change ↔ change.kind ≠ .other ∧ .up ∈ s.outputDir.components ∧
        ∃ p ∈ change.paths, ¬s.Matched f p) := by
  refine ⟨fun d p => inOutput_iff_liesIn hroot d, fun p => ignores_iff_of_inOutput hroot hf, ?_⟩
  intro change hpaths
  have hnot : ∀ p ∈ change.paths,
      (!f.ignores p) = true ↔ .up ∈ s.outputDir.components ∧ ¬s.Matched f p := by
    intro p hp
    rw [Bool.not_eq_true', ← Bool.not_eq_true, ignores_iff_of_inOutput hroot hf (hpaths p hp),
      not_or, not_not]
  rw [WatchFilter.isRelevant, Bool.and_eq_true, decide_eq_true_iff, List.any_eq_true]
  refine and_congr_right fun _ => ?_
  constructor
  · rintro ⟨p, hp, hkept⟩
    obtain ⟨hup, hmatched⟩ := (hnot p hp).1 hkept
    exact ⟨hup, p, hp, hmatched⟩
  · rintro ⟨hup, p, hp, hmatched⟩
    exact ⟨p, hp, (hnot p hp).2 ⟨hup, hmatched⟩⟩

/-- A project without entries, with the given output directory. -/
def bare (output : Path) : Site :=
  ⟨.ofString "/r", { output := output }, .ofText [], .empty⟩

theorem watchFilter_bare (output : Path) : (bare output).watchFilter =
    .ok ⟨(bare output).descriptionDir, (bare output).outputDir, []⟩ := rfl

/-- Dots and slashes more do no harm. -/
theorem watchFilter_ignores_iff_dotted : ∃ f, (bare (.ofString "./site//")).watchFilter = .ok f ∧
    (bare (.ofString "./site//")).InOutput (.ofString "/r/site/page") ∧
    f.ignores (.ofString "/r/site/page") ∧
    ¬f.isRelevant ⟨.modified, [.ofString "/r/site/page"]⟩ := by
  have hf := watchFilter_bare (.ofString "./site//")
  have hp : (bare (.ofString "./site//")).InOutput (.ofString "/r/site/page") :=
    ⟨by cbv, by cbv, by cbv⟩
  have hup : .up ∉ (bare (.ofString "./site//")).outputDir.components := by decide
  obtain ⟨-, hignores, hrelevant⟩ := watchFilter_ignores_iff (by cbv) hf
  refine ⟨_, hf, hp, (hignores _ hp).2 (Or.inl hup), fun h => ?_⟩
  exact hup ((hrelevant ⟨.modified, [_]⟩ (List.forall_mem_singleton.2 hp)).1 h).2.1

/-- With a step up in its path an output directory within the description directory is not
seen. -/
theorem detour_relevant : ∃ f,
    let s := bare (.ofString "site-description/x/../site")
    let page := Path.ofString "/r/site-description/site/page"
    s.watchFilter = .ok f ∧ page.startsWith s.descriptionDir ∧ s.InOutput page ∧
    ¬f.ignores page ∧ f.isRelevant ⟨.modified, [page]⟩ :=
  ⟨_, watchFilter_bare _, by cbv, ⟨by cbv, by cbv, by cbv⟩, Bool.eq_false_iff.1 (by cbv), by cbv⟩

end Site

end Folio
