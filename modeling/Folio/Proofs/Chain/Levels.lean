import Folio.Chain.Walk
import Folio.Proofs.Template.Resolve
import Folio.Proofs.Template.Sections

/-!
# Walks as lists of levels

A walk meets one document after another; a document with its parent and its sections
is a `Level`. `Source.walkFrom` lists the levels without resolving anything, so that
neither the levels nor the way a walk ends can depend on a scope.

`chainFrom_eq` and `buildFrom_eq` : the chain and the page of a walk are functions of
its levels. `Climb` says how the levels of a finished walk follow one another, and
`scopeAfter` is the scope in which the document after some levels is resolved
(`buildFrom_scopeAfter`).
-/

namespace Folio

/-- A document of a walk with its parent and its sections. -/
structure Level where
  document : Document
  segmented : Segmented

/-- The levels of a walk, and the trail at its end or the reason to stop. -/
structure Walk where
  levels : List Level
  ending : Except ChainError Trail

/-- The walk that takes one level more at its beginning. -/
def Walk.cons (level : Level) (walk : Walk) : Walk :=
  ⟨level :: walk.levels, walk.ending⟩

@[simp] theorem Walk.levels_cons (level : Level) (walk : Walk) :
    (walk.cons level).levels = level :: walk.levels := rfl

namespace Level

/-- The path that a level was read from. -/
def path (level : Level) : Path :=
  level.document.path

/-- The text of a section of a level. -/
def section? (level : Level) (name : Text) : Option Text :=
  level.segmented.sections.get? name

/-- The sections of a level, resolved. -/
def resolved (level : Level) (scope : Scope) : Resolved :=
  resolve scope level.path level.segmented.sections

/-- The scope that the parent of a level is resolved in. -/
def handOn (level : Level) (scope : Scope) : Scope :=
  scope.extend (level.resolved scope).sections.toList

/-- A section of a level stands for its resolved text, any other name for what it stood
for before. -/
theorem get?_handOn (level : Level) (scope : Scope) (name : Text) :
    (level.handOn scope).get? name =
      match level.section? name with
      | some text => some (resolveText scope level.path name text).1
      | none => scope.get? name := by
  unfold handOn resolved section?
  rw [Dict.get?_extend_toList, get?_resolve]
  cases level.segmented.sections.get? name <;> rfl

end Level

/-- The scope after some levels. -/
def scopeAfter (scope : Scope) (levels : List Level) : Scope :=
  levels.foldl (fun scope level => level.handOn scope) scope

/-- The anonymous section of the last level, resolved in the scope of all others. -/
def page (scope : Scope) : List Level → Text
  | [] => []
  | [root] => ((root.resolved scope).sections.get? anonymous).getD []
  | level :: next :: rest => page (level.handOn scope) (next :: rest)

/-- The warnings of all levels. -/
def complaints (scope : Scope) : List Level → List Warning
  | [] => []
  | level :: rest => (level.resolved scope).warnings ++ complaints (level.handOn scope) rest

theorem scopeAfter_append (scope : Scope) (below above : List Level) :
    scopeAfter scope (below ++ above) = scopeAfter (scopeAfter scope below) above :=
  List.foldl_append

theorem page_append (root : Level) : ∀ (scope : Scope) (below : List Level),
    page scope (below ++ [root]) =
      ((root.resolved (scopeAfter scope below)).sections.get? anonymous).getD []
  | _, [] => rfl
  | scope, level :: below => by
    have ih := page_append root (level.handOn scope) below
    cases below with
    | nil => exact ih
    | cons next below => exact ih

theorem complaints_append : ∀ (scope : Scope) (below above : List Level),
    complaints scope (below ++ above) =
      complaints scope below ++ complaints (scopeAfter scope below) above
  | _, [], _ => rfl
  | scope, level :: below, above => by
    rw [List.cons_append, complaints, complaints_append, complaints, List.append_assoc]
    rfl

namespace Walk

/-- The chain of a walk : the trail at its end. -/
def listed (walk : Walk) : Except ChainError (List Path) :=
  walk.ending.map Trail.chain

/-- The page of a walk that begins with a scope and some warnings. -/
def rendered (walk : Walk) (scope : Scope) (warnings : List Warning) :
    Except ChainError Rendered :=
  walk.ending.map fun last =>
    ⟨page scope walk.levels, last.chain, warnings ++ complaints scope walk.levels⟩

/-- The first level of a walk hands its sections and its warnings on to the rest. -/
theorem rendered_cons {walk : Walk} (h : ∀ last, walk.ending = .ok last → walk.levels ≠ [])
    (level : Level) (scope : Scope) (warnings : List Warning) :
    (walk.cons level).rendered scope warnings =
      walk.rendered (level.handOn scope) (warnings ++ (level.resolved scope).warnings) := by
  obtain ⟨levels, ending⟩ := walk
  cases ending with
  | error e => rfl
  | ok last =>
    obtain ⟨next, rest, rfl⟩ := List.exists_cons_of_ne_nil (h last rfl)
    simp [rendered, Walk.cons, Except.map, page, complaints]

theorem rendered_eq_error_iff {walk : Walk} {scope : Scope} {warnings : List Warning}
    {e : ChainError} :
    walk.rendered scope warnings = .error e ↔ walk.ending = .error e := by
  unfold Walk.rendered
  cases walk.ending <;> simp [Except.map]

theorem exists_ending_of_rendered {walk : Walk} {scope : Scope} {warnings : List Warning}
    {r : Rendered} (h : walk.rendered scope warnings = .ok r) :
    ∃ last, walk.ending = .ok last := by
  cases he : walk.ending with
  | ok last => exact ⟨last, rfl⟩
  | error e =>
    rw [rendered_eq_error_iff.2 he] at h
    cases h

end Walk

/-- A way to load the document at a path. -/
abbrev Loader :=
  Path → Trail → Except ChainError (Document × Trail)

/-- Loads the document at `p` as the next level of a walk. -/
def enter (load : Loader) (rules : Rules) (p : Path) (trail : Trail) :
    Except ChainError (Level × Trail) :=
  match load p trail with
  | .error e => .error e
  | .ok (doc, trail') =>
    match segment rules doc with
    | .error e => .error (.segment e)
    | .ok segmented => .ok (⟨doc, segmented⟩, trail')

theorem load_of_enter {load : Loader} {rules : Rules} {p : Path} {trail trail' : Trail}
    {level : Level} (h : enter load rules p trail = .ok (level, trail')) :
    load p trail = .ok (level.document, trail') ∧
      segment rules level.document = .ok level.segmented := by
  unfold enter at h
  split at h
  · cases h
  · rename_i doc t hl
    split at h
    · cases h
    · rename_i segmented hs
      cases h
      exact ⟨hl, hs⟩

namespace Source

variable {s : Source} {rules : Rules}

theorem unseen_enter_lt {p : Path} {trail trail' : Trail} {level : Level}
    (h : enter s.load rules p trail = .ok (level, trail')) : s.unseen trail' < s.unseen trail :=
  unseen_load_lt (load_of_enter h).1

/-- A level is what is read at its path, and the walk had not met it. -/
theorem enter_eq_ok {p : Path} {trail trail' : Trail} {level : Level}
    (h : enter s.load rules p trail = .ok (level, trail')) :
    level.path = p ∧ s.read p = .ok level.document.text ∧
      segment rules level.document = .ok level.segmented ∧
      s.identity p ∉ trail.seen ∧ trail' = trail.push p (s.identity p) := by
  obtain ⟨hl, hs⟩ := load_of_enter h
  unfold load at hl
  split at hl
  · cases hl
  · rename_i hseen
    split at hl
    · cases hl
    · rename_i text hread
      obtain ⟨hdoc, rfl⟩ := Prod.mk.inj (Except.ok.inj hl)
      refine ⟨?_, ?_, hs, hseen, rfl⟩
      · rw [Level.path, ← hdoc]
      · rw [← hdoc, hread]

/-- The levels of a walk that goes on at `p`, and how it ends. -/
def walkFrom (s : Source) (rules : Rules) (p : Path) (trail : Trail) : Walk :=
  match _h : enter s.load rules p trail with
  | .error e => ⟨[], .error e⟩
  | .ok (level, trail') =>
    match level.segmented.parent with
    | none => ⟨[level], .ok trail'⟩
    | some parent => (walkFrom s rules parent trail').cons level
termination_by s.unseen trail
decreasing_by exact unseen_enter_lt _h

/-- The levels of the walk from `entry`, and how it ends. -/
def walk (s : Source) (rules : Rules) (entry : Path) : Walk :=
  s.walkFrom rules entry .empty

theorem walkFrom_enter (p : Path) (trail : Trail) :
    s.walkFrom rules p trail =
      match enter s.load rules p trail with
      | .error e => ⟨[], .error e⟩
      | .ok (level, trail') =>
        match level.segmented.parent with
        | none => ⟨[level], .ok trail'⟩
        | some parent => (s.walkFrom rules parent trail').cons level := by
  rw [walkFrom]
  cases h : enter s.load rules p trail with
  | error e => rfl
  | ok entered =>
    obtain ⟨level, trail'⟩ := entered
    cases hp : level.segmented.parent <;> simp [hp]

theorem chainFrom_enter (p : Path) (trail : Trail) :
    s.chainFrom rules p trail =
      match enter s.load rules p trail with
      | .error e => .error e
      | .ok (level, trail') =>
        match level.segmented.parent with
        | none => .ok trail'.chain
        | some parent => s.chainFrom rules parent trail' := by
  rw [chainFrom, enter]
  cases hl : s.load p trail with
  | error e => rfl
  | ok loaded =>
    obtain ⟨doc, trail'⟩ := loaded
    cases hs : segment rules doc with
    | error e => simp [hs]
    | ok segmented => cases hp : segmented.parent <;> simp [hs, hp]

theorem buildFrom_enter (p : Path) (trail : Trail) (scope : Scope) (warnings : List Warning) :
    s.buildFrom rules p trail scope warnings =
      match enter s.load rules p trail with
      | .error e => .error e
      | .ok (level, trail') =>
        match level.segmented.parent with
        | none => .ok ⟨page scope [level], trail'.chain,
            warnings ++ (level.resolved scope).warnings⟩
        | some parent => s.buildFrom rules parent trail' (level.handOn scope)
            (warnings ++ (level.resolved scope).warnings) := by
  rw [buildFrom, enter]
  cases hl : s.load p trail with
  | error e => rfl
  | ok loaded =>
    obtain ⟨doc, trail'⟩ := loaded
    cases hs : segment rules doc with
    | error e => simp [hs]
    | ok segmented =>
      cases hp : segmented.parent <;>
        simp [hs, hp, page, Level.handOn, Level.resolved, Level.path]

theorem chainFrom_eq (p : Path) (trail : Trail) :
    s.chainFrom rules p trail = (s.walkFrom rules p trail).listed := by
  fun_induction walkFrom s rules p trail with
  | case1 p trail e h => rw [chainFrom_enter, h]; rfl
  | case2 p trail level trail' h hp => rw [chainFrom_enter, h]; simp [hp, Walk.listed, Except.map]
  | case3 p trail level trail' h parent hp ih =>
    rw [chainFrom_enter, h]
    simp only [hp, ih]
    rfl

theorem chainOf_eq (entry : Path) : s.chainOf rules entry = (s.walk rules entry).listed :=
  chainFrom_eq entry .empty

/-! ## Finished walks -/

/-- Whether `levels` are what lies on the way from `p` to a document without a parent :
each is read and split, and the next one stands at the path of its parent. -/
def Climb (s : Source) (rules : Rules) : Path → List Level → Prop
  | _, [] => False
  | p, level :: rest =>
    level.path = p ∧ s.read p = .ok level.document.text ∧
      segment rules level.document = .ok level.segmented ∧
      match level.segmented.parent with
      | none => rest = []
      | some parent => Climb s rules parent rest

theorem Climb.ne_nil {p : Path} {levels : List Level} (h : s.Climb rules p levels) :
    levels ≠ [] := by
  rintro rfl
  exact h

/-- A walk that ends well climbs to a document without a parent, its chain lists the
paths of its levels, and it meets no identity twice. -/
theorem climb_walkFrom {p : Path} {trail last : Trail}
    (h : (s.walkFrom rules p trail).ending = .ok last) :
    s.Climb rules p (s.walkFrom rules p trail).levels ∧
      last.chain = trail.chain ++ (s.walkFrom rules p trail).levels.map Level.path ∧
      ((s.walkFrom rules p trail).levels.map fun level => s.identity level.path).Nodup ∧
      ∀ level ∈ (s.walkFrom rules p trail).levels, s.identity level.path ∉ trail.seen := by
  fun_induction walkFrom s rules p trail with
  | case1 => cases h
  | case2 p trail level trail' he hp =>
    cases h
    obtain ⟨rfl, hread, hs, hseen, rfl⟩ := enter_eq_ok he
    exact ⟨⟨rfl, hread, hs, by rw [hp]⟩, rfl, by simp, by simpa using hseen⟩
  | case3 p trail level trail' he parent hp ih =>
    obtain ⟨rfl, hread, hs, hseen, rfl⟩ := enter_eq_ok he
    obtain ⟨hclimb, hchain, hnodup, hdisj⟩ := ih h
    refine ⟨⟨rfl, hread, hs, by rw [hp]; exact hclimb⟩, ?_, ?_, ?_⟩
    · rw [hchain]
      simp [Trail.push]
    · refine List.nodup_cons.2 ⟨fun hmem => ?_, hnodup⟩
      obtain ⟨other, ho, he⟩ := List.mem_map.1 hmem
      exact hdisj other ho (he ▸ List.mem_cons_self)
    · intro other ho
      rcases List.mem_cons.1 ho with rfl | ho
      · exact hseen
      · exact fun hmem => hdisj other ho (List.mem_cons_of_mem _ hmem)

theorem buildFrom_eq (p : Path) (trail : Trail) (scope : Scope) (warnings : List Warning) :
    s.buildFrom rules p trail scope warnings =
      (s.walkFrom rules p trail).rendered scope warnings := by
  fun_induction walkFrom s rules p trail generalizing scope warnings with
  | case1 p trail e h => rw [buildFrom_enter, h]; rfl
  | case2 p trail level trail' h hp =>
    rw [buildFrom_enter, h]
    simp [hp, Walk.rendered, Except.map, complaints]
  | case3 p trail level trail' h parent hp ih =>
    have hne : ∀ last, (s.walkFrom rules parent trail').ending = .ok last →
        (s.walkFrom rules parent trail').levels ≠ [] :=
      fun last hw => (climb_walkFrom hw).1.ne_nil
    rw [buildFrom_enter, h, Walk.rendered_cons hne, ← ih]
    simp only [hp]

theorem build_eq (entry : Path) (globals : Scope) :
    s.build rules entry globals = (s.walk rules entry).rendered globals [] :=
  buildFrom_eq entry .empty globals []

/-- What a build that succeeds answers is read off the levels of its walk. -/
theorem climb_of_build_eq_ok {entry : Path} {globals : Scope} {r : Rendered}
    (h : s.build rules entry globals = .ok r) :
    s.Climb rules entry (s.walk rules entry).levels ∧
      r = ⟨page globals (s.walk rules entry).levels,
        (s.walk rules entry).levels.map Level.path,
        complaints globals (s.walk rules entry).levels⟩ := by
  rw [build_eq, Walk.rendered] at h
  cases hw : (s.walk rules entry).ending with
  | error e =>
    rw [hw] at h
    cases h
  | ok last =>
    rw [hw] at h
    cases h
    obtain ⟨hclimb, hchain, -, -⟩ := climb_walkFrom hw
    exact ⟨hclimb, congrArg (fun chain => (⟨_, chain, _⟩ : Rendered)) hchain⟩

/-- The first level of a walk is what was loaded first. -/
theorem enter_of_levels_eq {level : Level} {above : List Level} {p : Path} {trail : Trail}
    (h : (s.walkFrom rules p trail).levels = level :: above) :
    ∃ trail', enter s.load rules p trail = .ok (level, trail') := by
  rw [walkFrom_enter] at h
  cases he : enter s.load rules p trail with
  | error e => simp [he] at h
  | ok entered =>
    obtain ⟨first, trail'⟩ := entered
    refine ⟨trail', ?_⟩
    cases hp : first.segmented.parent <;> simp only [he, hp] at h
    · rw [(List.cons.inj h).1]
    · rw [Walk.levels_cons] at h
      rw [(List.cons.inj h).1]

/-- A walk comes to each of its levels with the scope after the levels before, and goes
on from there. -/
theorem buildFrom_scopeAfter {level : Level} {above : List Level} :
    ∀ {below : List Level} {p : Path} {trail : Trail} (scope : Scope) (warnings : List Warning),
      (s.walkFrom rules p trail).levels = below ++ level :: above →
      ∃ trail', s.buildFrom rules p trail scope warnings =
          s.buildFrom rules level.path trail' (scopeAfter scope below)
            (warnings ++ complaints scope below) ∧
        (s.walkFrom rules level.path trail').levels = level :: above
  | [], p, trail, scope, warnings, h => by
    obtain ⟨trail', he⟩ := enter_of_levels_eq h
    obtain rfl := (enter_eq_ok he).1
    exact ⟨trail, by simp [scopeAfter, complaints], h⟩
  | b :: below, p, trail, scope, warnings, h => by
    rw [buildFrom_enter]
    rw [walkFrom_enter] at h
    cases he : enter s.load rules p trail with
    | error e => simp [he] at h
    | ok entered =>
      obtain ⟨l, trail'⟩ := entered
      cases hl : l.segmented.parent with
      | none => simp [he, hl] at h
      | some parent =>
        simp only [he, hl, Walk.levels_cons, List.cons_append, List.cons.injEq] at h
        obtain ⟨rfl, hrest⟩ := h
        obtain ⟨t, hbuild, hwalk⟩ := buildFrom_scopeAfter (l.handOn scope)
          (warnings ++ (l.resolved scope).warnings) hrest
        refine ⟨t, ?_, hwalk⟩
        simp only [hl, hbuild, complaints, List.append_assoc]
        rfl

end Source

end Folio
