import Mathlib
import Folio.Proofs.Chain.Cycle

/-!
# More globals

`build_supplied` : when some globals are extended by others, a build fails as it did or
takes the same chain, and of its warnings exactly those about slots that the larger
globals bind go away. When none goes away, the page stays as it is.

The texts of the two builds may differ at every level, since a section that holds a slot
for a new name is handed on with the value of that name in it. What relates the two
scopes at each level is that the second one binds the names of the first one and the
names of the larger globals (`Scope.Adds`); that is enough for the warnings. As long as
no warning has gone away, no section has seen a new name, and each text of the first
scope is a text of the second one too (`Scope.PartOf`); that is enough for the page.
-/

namespace Folio

/-- Whether `other` binds all that `scope` binds, and to the same texts. -/
def Scope.PartOf (scope other : Scope) : Prop :=
  ∀ x text, scope.get? x = some text → other.get? x = some text

/-- Whether `other` binds the names of `scope` and those of `more`, and no others. -/
def Scope.Adds (more scope other : Scope) : Prop :=
  ∀ x, (other.get? x).isSome = ((scope.get? x).isSome || (more.get? x).isSome)

/-- Whether a statement was left in place for want of a name that `globals` binds. -/
def WarningKind.isSuppliedBy (globals : Scope) : WarningKind → Bool
  | .missingVariable name => (globals.get? name).isSome
  | .unknownCommand _ => false
  | .invalidArguments _ _ => false

/-- Whether a warning is about a slot whose name `globals` binds. -/
def Warning.isSuppliedBy (globals : Scope) (w : Warning) : Bool :=
  w.kind.isSuppliedBy globals

theorem Scope.PartOf.adds {scope other : Scope} (h : scope.PartOf other) :
    other.Adds scope other := by
  intro x
  cases hx : scope.get? x with
  | none => rfl
  | some text => rw [h x text hx]; rfl

theorem Scope.partOf_insert {scope : Scope} {x : Text} (h : scope.get? x = none) (text : Text) :
    scope.PartOf (scope.insert x text) := by
  intro y old hy
  have hne : y ≠ x := by
    rintro rfl
    rw [h] at hy
    cases hy
  rw [Dict.get?_insert, if_neg hne, hy]

/-- The reason to leave a statement that is no slot is never a missing name. -/
theorem isSuppliedBy_of_slot?_eq_none {scope : Scope} {body : Text} {kind : WarningKind}
    (hs : slot? body = none) (hk : substitute scope body = .error kind) (globals : Scope) :
    kind.isSuppliedBy globals = false := by
  cases kind with
  | unknownCommand => rfl
  | invalidArguments => rfl
  | missingVariable name =>
    unfold substitute at hk
    split at hk
    · cases hk
    · rename_i command args hw
      split at hk
      · rename_i hc
        split at hk
        · rename_i x
          rw [slot?_eq_some_iff.2 (hc ▸ hw)] at hs
          cases hs
        · cases hk
      · cases hk

/-! ## Warnings -/

section

variable {more scope other : Scope}

/-- With more names bound, the statements left in place are those left before, less the
slots whose names are bound now. -/
theorem Item.left?_of_adds (h : more.Adds scope other) : ∀ item : Item,
    item.left? other = (item.left? scope).filter fun left => !left.2.isSuppliedBy more
  | .char _ => rfl
  | .statement body => by
    rw [Item.left?, Item.left?]
    cases hs : slot? body with
    | none =>
      obtain ⟨kind, hk⟩ := substitute_of_slot?_eq_none hs
      have hplain := isSuppliedBy_of_slot?_eq_none hs (hk scope) more
      rw [hk, hk]
      simp only [Option.filter_some, hplain, Bool.not_false, if_true]
    | some name =>
      have hname := h name
      rw [substitute_of_slot? hs, substitute_of_slot? hs]
      cases hg : scope.get? name with
      | some text =>
        obtain ⟨new, ho⟩ : ∃ new, other.get? name = some new :=
          Option.isSome_iff_exists.1 (by rw [hname, hg]; rfl)
        simp [ho]
      | none =>
        cases ho : other.get? name <;>
          simp_all [WarningKind.isSuppliedBy, Option.filter]

theorem resolveText_snd_of_adds (h : more.Adds scope other) (file : Path) (name text : Text) :
    (resolveText other file name text).2 =
      (resolveText scope file name text).2.filter fun w => !w.isSuppliedBy more := by
  rw [resolveText_snd, resolveText_snd, funext (Item.left?_of_adds h), ← List.filter_filterMap,
    List.filter_map]
  rfl

theorem warnings_resolved_of_adds (h : more.Adds scope other) (level : Level) :
    (level.resolved other).warnings =
      (level.resolved scope).warnings.filter fun w => !w.isSuppliedBy more := by
  simp only [Level.resolved, resolve, List.filter_flatMap, resolveText_snd_of_adds h]

/-- A level hides the same names from both scopes. -/
theorem Scope.Adds.handOn (h : more.Adds scope other) (level : Level) :
    more.Adds (level.handOn scope) (level.handOn other) := by
  intro x
  rw [Level.get?_handOn, Level.get?_handOn]
  cases level.section? x with
  | none => exact h x
  | some text => rfl

theorem complaints_of_adds : ∀ {levels : List Level} {scope other : Scope},
    more.Adds scope other →
    complaints other levels = (complaints scope levels).filter fun w => !w.isSuppliedBy more
  | [], _, _, _ => rfl
  | level :: rest, scope, other, h => by
    rw [complaints, complaints, List.filter_append, warnings_resolved_of_adds h,
      complaints_of_adds (h.handOn level)]

/-! ## The page -/

/-- Where no statement is left in place for want of a new name, the items stand for what
they stood for before. -/
theorem Item.resolved_of_partOf (hpart : scope.PartOf other) (h : more.Adds scope other) :
    ∀ {item : Item}, (∀ left, item.left? scope = some left → left.2.isSuppliedBy more = false) →
    item.resolved other = item.resolved scope
  | .char _, _ => rfl
  | .statement body, hleft => by
    rw [Item.resolved_statement, Item.resolved_statement]
    cases hs : slot? body with
    | none => rfl
    | some name =>
      cases hg : scope.get? name with
      | some text => simp [hg, hpart name text hg]
      | none =>
        have hnew : (more.get? name).isSome = false := by
          refine hleft (delimited body, .missingVariable name) ?_
          rw [Item.left?, substitute_of_slot? hs, hg]
        have ho : other.get? name = none := by
          have hname := h name
          rw [hg, hnew] at hname
          simpa using hname
        simp [hg, ho]

theorem resolveText_fst_of_partOf (hpart : scope.PartOf other) (h : more.Adds scope other)
    {file : Path} {name text : Text}
    (hw : ∀ w ∈ (resolveText scope file name text).2, w.isSuppliedBy more = false) :
    (resolveText other file name text).1 = (resolveText scope file name text).1 := by
  rw [resolveText_fst, resolveText_fst]
  refine List.flatMap_congr fun item hitem => Item.resolved_of_partOf hpart h fun left hleft => ?_
  refine hw ⟨file, name, left.1, left.2⟩ ?_
  rw [resolveText_snd]
  exact List.mem_map.2 ⟨left, List.mem_filterMap.2 ⟨item, hitem, hleft⟩, rfl⟩

/-- A section of a level resolves to the same text in both scopes. -/
theorem resolveText_fst_of_section (hpart : scope.PartOf other) (h : more.Adds scope other)
    {level : Level} (hw : ∀ w ∈ (level.resolved scope).warnings, w.isSuppliedBy more = false)
    {name text : Text} (hname : level.section? name = some text) :
    (resolveText other level.path name text).1 = (resolveText scope level.path name text).1 :=
  resolveText_fst_of_partOf hpart h fun w hmem =>
    hw w (mem_warnings_resolve.2 ⟨name, text, hname, hmem⟩)

theorem Scope.PartOf.handOn (hpart : scope.PartOf other) (h : more.Adds scope other)
    {level : Level} (hw : ∀ w ∈ (level.resolved scope).warnings, w.isSuppliedBy more = false) :
    (level.handOn scope).PartOf (level.handOn other) := by
  intro x text hx
  rw [Level.get?_handOn] at hx ⊢
  cases hs : level.section? x with
  | none =>
    rw [hs] at hx
    exact hpart x text hx
  | some source =>
    rw [hs] at hx
    simp only [resolveText_fst_of_section hpart h hw hs]
    exact hx

theorem page_of_partOf : ∀ {levels : List Level} {scope other : Scope},
    scope.PartOf other → more.Adds scope other →
    (∀ w ∈ complaints scope levels, w.isSuppliedBy more = false) →
    page other levels = page scope levels
  | [], _, _, _, _, _ => rfl
  | [root], scope, other, hpart, h, hw => by
    have hroot : ∀ w ∈ (root.resolved scope).warnings, w.isSuppliedBy more = false :=
      fun w hmem => hw w (List.mem_append_left _ hmem)
    rw [page, page, Level.resolved, Level.resolved, get?_resolve, get?_resolve]
    cases hs : root.segmented.sections.get? anonymous with
    | none => rfl
    | some text => exact resolveText_fst_of_section hpart h hroot hs
  | level :: next :: rest, scope, other, hpart, h, hw => by
    rw [page, page]
    refine page_of_partOf (hpart.handOn h fun w hmem => hw w ?_) (h.handOn level)
      fun w hmem => hw w ?_
    · exact List.mem_append_left _ hmem
    · exact List.mem_append_right _ hmem

end

/-! ## Builds -/

/-- How the result of a build relates to its result with the globals `more`, which extend
the globals it had. -/
inductive Supplied (more : Scope) :
    Except ChainError Rendered → Except ChainError Rendered → Prop
  | fails (e : ChainError) : Supplied more (.error e) (.error e)
  | builds {before after : Rendered} (chain : after.chain = before.chain)
      (warnings : after.warnings = before.warnings.filter fun w => !w.isSuppliedBy more)
      (text : after.warnings = before.warnings → after.text = before.text) :
      Supplied more (.ok before) (.ok after)

theorem Walk.supplied {globals more : Scope} (h : globals.PartOf more) (walk : Walk) :
    Supplied more (walk.rendered globals []) (walk.rendered more []) := by
  unfold Walk.rendered
  cases walk.ending with
  | error e => exact .fails e
  | ok last =>
    refine .builds rfl (complaints_of_adds h.adds) fun hsame => page_of_partOf h h.adds ?_
    have hkept : (complaints globals walk.levels).filter (fun w => !w.isSuppliedBy more) =
        complaints globals walk.levels := (complaints_of_adds h.adds).symm.trans hsame
    intro w hw
    simpa using List.filter_eq_self.1 hkept w hw

/-- More globals only remove warnings about missing names. Over every source, and for
every way to load after every number of loads, a build with larger globals ends in the
same error, or has the same chain and the same warnings in the same order without those
about names that the larger globals bind; if no warning is gone, the page is the same. -/
theorem build_supplied (rules : Rules) (entry : Path) {globals more : Scope}
    (h : globals.PartOf more) :
    (∀ s : Source, Supplied more (s.build rules entry globals) (s.build rules entry more)) ∧
    ∀ (load : Loader) (n : Nat),
      Option.Rel (Supplied more) (buildWithin load rules n entry .empty globals [])
        (buildWithin load rules n entry .empty more []) := by
  refine ⟨fun s => ?_, fun load n => ?_⟩
  · rw [Source.build_eq, Source.build_eq]
    exact Walk.supplied h _
  · rw [buildWithin_eq, buildWithin_eq]
    cases walkWithin load rules n entry .empty with
    | none => exact .none
    | some walk => exact .some (Walk.supplied h walk)

/-- A document with a slot in a section, and its parent with slots of its own. -/
def greeting : Shelf :=
  (Shelf.empty.insert ⟨['a']⟩ "$<inherit b>$$<fill x>$Hi $<slot who>$".toList).insert
    ⟨['b']⟩ "$<slot x>$ $<slot year>$ $<slot z>$".toList

/-- Globals that bind one of the names that `greeting` asks for. -/
def year : Scope :=
  Dict.ofList [("year".toList, ['9'])]

theorem build_supplied_greeting :
    year.PartOf (year.insert "who".toList "Ada".toList) ∧
      greeting.source.build ⟨⟨[]⟩, false⟩ ⟨['a']⟩ year =
        .ok ⟨"Hi $<slot who>$ 9 $<slot z>$".toList, [⟨['a']⟩, ⟨['b']⟩],
          [⟨⟨['a']⟩, ['x'], "$<slot who>$".toList, .missingVariable "who".toList⟩,
            ⟨⟨['b']⟩, anonymous, "$<slot z>$".toList, .missingVariable ['z']⟩]⟩ ∧
      greeting.source.build ⟨⟨[]⟩, false⟩ ⟨['a']⟩ (year.insert "who".toList "Ada".toList) =
        .ok ⟨"Hi Ada 9 $<slot z>$".toList, [⟨['a']⟩, ⟨['b']⟩],
          [⟨⟨['b']⟩, anonymous, "$<slot z>$".toList, .missingVariable ['z']⟩]⟩ ∧
      Supplied (year.insert "who".toList "Ada".toList)
        (greeting.source.build ⟨⟨[]⟩, false⟩ ⟨['a']⟩ year)
        (greeting.source.build ⟨⟨[]⟩, false⟩ ⟨['a']⟩
          (year.insert "who".toList "Ada".toList)) := by
  have h : year.PartOf (year.insert "who".toList "Ada".toList) := Scope.partOf_insert (by cbv) _
  exact ⟨h, by cbv, by cbv, (build_supplied ⟨⟨[]⟩, false⟩ ⟨['a']⟩ h).1 greeting.source⟩

end Folio
