import Folio.Proofs.Chain.Cycle
import Folio.Site.Artifact

/-!
# Agreement of chains and pages

To list a chain and to build a page are two walks of their own, and only the second one
resolves anything. `chainOf_agrees` : they stay in step, so that a chain is listed
exactly when the page is built, it is the chain of the page, and the reason to stop is
the same. No global has a part in any of this.

Both results are read off one walk (`Walk.listed_eq`). The same holds of walks that are
cut off, where nothing is known about the way to load : a source that goes on for ever
does so for both.

A page depends on nothing but the documents of its chain (`Source.build_of_agree`).
-/

namespace Folio

/-- The chain of a walk is the chain of its page, whatever the page is resolved in. -/
theorem Walk.listed_eq (walk : Walk) (scope : Scope) (warnings : List Warning) :
    walk.listed = (walk.rendered scope warnings).map Rendered.chain := by
  unfold Walk.listed Walk.rendered
  cases walk.ending <;> rfl

theorem chainWithin_eq_map_buildWithin (load : Loader) (rules : Rules) (n : Nat) (p : Path)
    (trail : Trail) (scope : Scope) (warnings : List Warning) :
    chainWithin load rules n p trail =
      (buildWithin load rules n p trail scope warnings).map (Except.map Rendered.chain) := by
  rw [chainWithin_eq, buildWithin_eq, Option.map_map]
  exact congrArg (Option.map · _) (funext fun walk => walk.listed_eq scope warnings)

/-- The paths of the documents that a walk wants to read : where it starts, and the parents
that its levels name. -/
def Walk.wanted (walk : Walk) (entry : Path) : List Path :=
  entry :: walk.levels.filterMap fun level => level.segmented.parent

namespace Source

variable {s other : Source} {rules : Rules}

theorem chainOf_eq_map_build (s : Source) (rules : Rules) (entry : Path) (globals : Scope) :
    s.chainOf rules entry = (s.build rules entry globals).map Rendered.chain := by
  rw [chainOf_eq, build_eq]
  exact Walk.listed_eq _ globals []

/-! ## Sources that agree on a chain -/

theorem enter_congr {p : Path} (hread : other.read p = s.read p)
    (hid : other.identity p = s.identity p) (trail : Trail) :
    enter other.load rules p trail = enter s.load rules p trail := by
  have hl : other.load p trail = s.load p trail := by
    rw [load, load, hread, hid]
  rw [enter, enter, hl]

/-- A walk is the same in every source that has the same at the paths that it wants, and
that it cannot read there is the same too. -/
theorem walkFrom_congr {p : Path} {trail : Trail}
    (h : ∀ q ∈ (s.walkFrom rules p trail).wanted p,
      other.read q = s.read q ∧ other.identity q = s.identity q) :
    other.walkFrom rules p trail = s.walkFrom rules p trail := by
  have henter : enter other.load rules p trail = enter s.load rules p trail :=
    enter_congr (h p List.mem_cons_self).1 (h p List.mem_cons_self).2 trail
  fun_induction walkFrom s rules p trail with
  | case1 p trail e he => rw [walkFrom_enter, henter, he]
  | case2 p trail level trail' he hp =>
    rw [walkFrom_enter, henter, he]
    simp only [hp]
  | case3 p trail level trail' he parent hp ih =>
    have hrest : ∀ q ∈ (s.walkFrom rules parent trail').wanted parent,
        other.read q = s.read q ∧ other.identity q = s.identity q := by
      intro q hq
      refine h q (List.mem_cons_of_mem p ?_)
      rcases List.mem_cons.1 hq with rfl | hq
      · exact List.mem_filterMap.2 ⟨level, List.mem_cons_self, hp⟩
      · obtain ⟨above, habove, hparent⟩ := List.mem_filterMap.1 hq
        exact List.mem_filterMap.2 ⟨above, List.mem_cons_of_mem level habove, hparent⟩
    rw [walkFrom_enter, henter, he]
    simp only [hp]
    rw [ih hrest (enter_congr (hrest parent List.mem_cons_self).1
      (hrest parent List.mem_cons_self).2 trail')]

/-- A page, or the reason why there is none, is the same in every source that has the same
at the paths that the walk wants. -/
theorem build_congr {entry : Path}
    (h : ∀ q ∈ (s.walk rules entry).wanted entry,
      other.read q = s.read q ∧ other.identity q = s.identity q) (globals : Scope) :
    other.build rules entry globals = s.build rules entry globals := by
  have hwalk : other.walk rules entry = s.walk rules entry := walkFrom_congr h
  rw [build_eq, build_eq, hwalk]

/-- A walk that ends well meets the same levels in every source that has the same
documents at the paths of the walk. -/
theorem walkFrom_of_agree {p : Path} {trail last : Trail}
    (h : (s.walkFrom rules p trail).ending = .ok last)
    (hagree : ∀ level ∈ (s.walkFrom rules p trail).levels,
      other.read level.path = s.read level.path ∧
        other.identity level.path = s.identity level.path) :
    other.walkFrom rules p trail = s.walkFrom rules p trail := by
  fun_induction walkFrom s rules p trail with
  | case1 => cases h
  | case2 p trail level trail' he hp =>
    obtain rfl := (enter_eq_ok he).1
    obtain ⟨hread, hid⟩ := hagree level (by simp)
    rw [walkFrom_enter, enter_congr hread hid, he]
    simp only [hp]
  | case3 p trail level trail' he parent hp ih =>
    obtain rfl := (enter_eq_ok he).1
    obtain ⟨hread, hid⟩ := hagree level (by simp)
    have hrest := ih h fun above ha => hagree above (List.mem_cons_of_mem level ha)
    rw [walkFrom_enter, enter_congr hread hid, he]
    simp only [hp, hrest]

theorem Climb.read_eq : ∀ {levels : List Level} {p : Path}, s.Climb rules p levels →
    ∀ level ∈ levels, s.read level.path = .ok level.document.text
  | first :: rest, p, h, level, hl => by
    obtain ⟨rfl, hread, -, hrest⟩ := h
    rcases List.mem_cons.1 hl with rfl | hl
    · exact hread
    · split at hrest
      · rw [hrest] at hl
        cases hl
      · exact Climb.read_eq hrest level hl

/-- A page is the same in every source that has the same documents at the paths of its
chain. -/
theorem build_of_agree {entry : Path} {globals : Scope} {r : Rendered}
    (h : s.build rules entry globals = .ok r)
    (hagree : ∀ p ∈ r.chain, other.read p = s.read p ∧ other.identity p = s.identity p) :
    other.build rules entry globals = .ok r := by
  obtain ⟨-, hr⟩ := climb_of_build_eq_ok h
  have hlevels : ∀ level ∈ (s.walk rules entry).levels,
      other.read level.path = s.read level.path ∧
        other.identity level.path = s.identity level.path := by
    intro level hl
    refine hagree level.path ?_
    rw [hr]
    exact List.mem_map_of_mem hl
  rw [build_eq, Walk.rendered] at h
  cases hw : (s.walk rules entry).ending with
  | error e =>
    rw [hw] at h
    cases h
  | ok last =>
    have hwalk : other.walk rules entry = s.walk rules entry := walkFrom_of_agree hw hlevels
    rw [build_eq, Walk.rendered, hwalk]
    exact h

end Source

/-- To list a chain and to build a page stay in step. Over every source the chain that
is listed is the chain of the page, and one fails exactly when the other does and for
the same reason; so it is for any two assignments of the globals, for every way to load
after every number of loads, and for every template of a site, whose chain is listed as
its artifact has it. -/
theorem chainOf_agrees (rules : Rules) (entry : Path) :
    (∀ (s : Source) (globals : Scope),
      s.chainOf rules entry = (s.build rules entry globals).map Rendered.chain) ∧
    (∀ (s : Source) (globals others : Scope),
      (s.build rules entry globals).map Rendered.chain =
        (s.build rules entry others).map Rendered.chain) ∧
    (∀ (load : Loader) (n : Nat) (globals : Scope),
      chainWithin load rules n entry .empty =
        (buildWithin load rules n entry .empty globals []).map (Except.map Rendered.chain)) ∧
    ∀ (site : Site) (d : Disk) (output : Path) (line : Nat),
      site.chainOf d ⟨entry, .template, output, line⟩ =
        (site.render d ⟨entry, .template, output, line⟩).map Artifact.chain := by
  refine ⟨fun s globals => s.chainOf_eq_map_build rules entry globals,
    fun s globals others => ?_, fun load n globals => ?_, fun site d output line => ?_⟩
  · rw [← s.chainOf_eq_map_build, ← s.chainOf_eq_map_build]
  · exact chainWithin_eq_map_buildWithin load rules n entry .empty globals []
  · have hpath : site.inputPath ⟨entry, .template, output, line⟩ =
        site.descriptionDir.join entry := rfl
    rw [Site.chainOf, hpath, Source.chainOf_eq_map_build _ _ _ site.globals, Site.render, hpath]
    cases d.source.build site.rules (site.descriptionDir.join entry) site.globals <;> rfl

end Folio
