import Folio.Proofs.Chain.Cycle

/-!
# Bound text is opaque

`build_opaque` : how a walk ends and what it warns about depends on the names of the
globals alone, and its page is a fixed list of pieces, each a literal text or the name
of a global. No value is read for statements at any level. This does not depend on the way
in which documents are loaded.

A `Sketch` says of which pieces the text bound to a name is made. A scope that keeps to
a sketch hands on one that keeps to the next sketch (`Sketch.Fits.handOn`), whatever the
values are. A warning only asks whether a name is bound (`complaints_congr`).
-/

namespace Folio

/-- A piece of a text : a literal text, or a global that stands for its value. -/
inductive Piece where
  | literal (text : Text)
  | global (name : Text)

/-- The text of a piece, with the values of the globals. -/
def Piece.fill (globals : Scope) : Piece → Text
  | .literal text => text
  | .global name => (globals.get? name).getD []

/-- The text of some pieces, with the values of the globals. -/
def assemble (globals : Scope) (pieces : List Piece) : Text :=
  pieces.flatMap (Piece.fill globals)

/-- Whether a scope binds the given names and no other. -/
def Scope.Binds (scope : Scope) (names : List Text) : Prop :=
  ∀ x, (scope.get? x).isSome ↔ x ∈ names

/-- Any names can be bound to any values. -/
theorem binds_ofList (names : List Text) (value : Text → Text) :
    Scope.Binds (Dict.ofList (names.map fun x => (x, value x))) names := by
  intro x
  rw [Dict.get?_ofList, List.lookup_isSome_iff]
  constructor
  · rintro ⟨e, he, hx⟩
    obtain ⟨y, hy, rfl⟩ := List.mem_map.1 (List.mem_reverse.1 he)
    rwa [beq_iff_eq.1 hx]
  · intro hx
    exact ⟨(x, value x), List.mem_reverse.2 (List.mem_map_of_mem hx), beq_self_eq_true x⟩

/-- Of which pieces the texts of a scope are made. -/
abbrev Sketch := Text → Option (List Piece)

namespace Sketch

/-- The sketch of the globals : each is a piece of its own. -/
def ofNames (names : List Text) : Sketch := fun x =>
  if names.contains x then some [.global x] else none

/-- Whether each text of a scope is made of the pieces of the sketch. -/
def Fits (sketch : Sketch) (globals scope : Scope) : Prop :=
  ∀ x, scope.get? x = (sketch x).map (assemble globals)

/-- Whether the pieces of a sketch name no other globals than the given ones. -/
def Within (sketch : Sketch) (names : List Text) : Prop :=
  ∀ x pieces, sketch x = some pieces → ∀ name, .global name ∈ pieces → name ∈ names

theorem fits_ofNames {globals : Scope} {names : List Text} (h : globals.Binds names) :
    (ofNames names).Fits globals globals := by
  intro x
  rw [ofNames]
  by_cases hx : x ∈ names
  · have hc : names.contains x := List.contains_iff_mem.2 hx
    obtain ⟨value, hv⟩ := Option.isSome_iff_exists.1 ((h x).2 hx)
    rw [if_pos hc, hv]
    simp [hv, assemble, Piece.fill]
  · have hc : ¬names.contains x := fun hc => hx (List.contains_iff_mem.1 hc)
    have hnone : globals.get? x = none := by
      rw [← Option.not_isSome_iff_eq_none, h x]
      exact hx
    rw [if_neg hc, hnone]
    rfl

theorem within_ofNames (names : List Text) : (ofNames names).Within names := by
  intro x pieces hx name hname
  rw [ofNames] at hx
  split at hx
  · rename_i hmem
    cases hx
    obtain rfl : name = x := by simpa using hname
    exact List.contains_iff_mem.1 hmem
  · cases hx

end Sketch

/-- The pieces that stand in the resolved text in place of an item. -/
def Item.pieces (sketch : Sketch) : Item → List Piece
  | .char c => [.literal [c]]
  | .statement body =>
    match slot? body with
    | some name => (sketch name).getD [.literal (delimited body)]
    | none => [.literal (delimited body)]

/-- The pieces of the resolved text of a section. -/
def piecesOf (sketch : Sketch) (text : Text) : List Piece :=
  (items text).flatMap (Item.pieces sketch)

theorem Item.resolved_eq_assemble {sketch : Sketch} {globals scope : Scope}
    (h : sketch.Fits globals scope) : ∀ item : Item,
    item.resolved scope = assemble globals (item.pieces sketch)
  | .char c => by simp [Item.resolved, Item.pieces, assemble, Piece.fill]
  | .statement body => by
    rw [Item.resolved_statement, Item.pieces]
    cases slot? body with
    | none => simp [assemble, Piece.fill]
    | some name =>
      simp only [h name]
      cases sketch name <;> simp [assemble, Piece.fill]

theorem resolveText_eq_assemble {sketch : Sketch} {globals scope : Scope}
    (h : sketch.Fits globals scope) (file : Path) (name text : Text) :
    (resolveText scope file name text).1 = assemble globals (piecesOf sketch text) := by
  rw [resolveText_fst, piecesOf, assemble, List.flatMap_assoc]
  exact congrArg (List.flatMap · (items text)) (funext (Item.resolved_eq_assemble h))

theorem within_piecesOf {sketch : Sketch} {names : List Text} (h : sketch.Within names)
    {text name : Text} (hn : .global name ∈ piecesOf sketch text) : name ∈ names := by
  obtain ⟨item, -, hitem⟩ := List.mem_flatMap.1 hn
  cases item with
  | char c => simp [Item.pieces] at hitem
  | statement body =>
    rw [Item.pieces] at hitem
    split at hitem
    · rename_i x hs
      cases hx : sketch x with
      | none => simp [hx] at hitem
      | some pieces => exact h x pieces hx name (by simpa [hx] using hitem)
    · simp at hitem

/-- The sketch of what a level hands on. -/
def Level.sketch (level : Level) (sketch : Sketch) : Sketch := fun x =>
  match level.section? x with
  | some text => some (piecesOf sketch text)
  | none => sketch x

theorem Sketch.Fits.handOn {sketch : Sketch} {globals scope : Scope}
    (h : sketch.Fits globals scope) (level : Level) :
    (level.sketch sketch).Fits globals (level.handOn scope) := by
  intro x
  rw [Level.get?_handOn, Level.sketch]
  cases level.section? x with
  | none => exact h x
  | some text => exact congrArg some (resolveText_eq_assemble h level.path x text)

theorem Sketch.Within.handOn {sketch : Sketch} {names : List Text}
    (h : sketch.Within names) (level : Level) : (level.sketch sketch).Within names := by
  intro x pieces hx name hname
  rw [Level.sketch] at hx
  split at hx
  · cases hx
    exact within_piecesOf h hname
  · exact h x pieces hx name hname

/-! ## The page -/

/-- The pieces of the page of some levels. -/
def pagePieces (sketch : Sketch) : List Level → List Piece
  | [] => []
  | [root] => (root.section? anonymous).elim [] (piecesOf sketch)
  | level :: next :: rest => pagePieces (level.sketch sketch) (next :: rest)

theorem page_eq_assemble {globals : Scope} : ∀ {levels : List Level} {sketch : Sketch}
    {scope : Scope}, sketch.Fits globals scope →
    page scope levels = assemble globals (pagePieces sketch levels)
  | [], _, _, _ => rfl
  | [root], sketch, scope, h => by
    rw [page, pagePieces, Level.resolved, get?_resolve, Level.section?]
    cases root.segmented.sections.get? anonymous with
    | none => rfl
    | some text => exact resolveText_eq_assemble h root.path anonymous text
  | level :: next :: rest, _, _, h => by
    rw [page, pagePieces]
    exact page_eq_assemble (h.handOn level)

theorem within_pagePieces {names : List Text} : ∀ {levels : List Level} {sketch : Sketch},
    sketch.Within names → ∀ name, .global name ∈ pagePieces sketch levels → name ∈ names
  | [], _, _, _, hn => nomatch hn
  | [root], sketch, h, name, hn => by
    rw [pagePieces] at hn
    cases hs : root.section? anonymous with
    | none => simp [hs] at hn
    | some text => exact within_piecesOf h (by simpa [hs] using hn)
  | level :: next :: rest, _, h, name, hn => within_pagePieces (h.handOn level) name hn

/-! ## The warnings -/

/-- Whether two scopes bind the same names. -/
def SameNames (scope other : Scope) : Prop :=
  ∀ x, (scope.get? x).isSome = (other.get? x).isSome

theorem Item.left?_congr {scope other : Scope} (h : SameNames scope other) : ∀ item : Item,
    item.left? scope = item.left? other
  | .char _ => rfl
  | .statement body => by
    rw [Item.left?, Item.left?]
    cases hs : slot? body with
    | none =>
      obtain ⟨kind, hk⟩ := substitute_of_slot?_eq_none hs
      rw [hk, hk]
    | some name =>
      have hname := h name
      rw [substitute_of_slot? hs, substitute_of_slot? hs]
      cases hg : scope.get? name <;> cases ho : other.get? name <;>
        simp_all

theorem resolveText_snd_congr {scope other : Scope} (h : SameNames scope other) (file : Path)
    (name text : Text) :
    (resolveText scope file name text).2 = (resolveText other file name text).2 := by
  rw [resolveText_snd, resolveText_snd, funext (Item.left?_congr h)]

theorem SameNames.handOn {scope other : Scope} (h : SameNames scope other) (level : Level) :
    SameNames (level.handOn scope) (level.handOn other) := by
  intro x
  rw [Level.get?_handOn, Level.get?_handOn]
  cases level.section? x with
  | none => exact h x
  | some text => rfl

/-- What a walk warns about depends on the names that are bound, not on the values. -/
theorem complaints_congr : ∀ {levels : List Level} {scope other : Scope},
    SameNames scope other → complaints scope levels = complaints other levels
  | [], _, _, _ => rfl
  | level :: rest, scope, other, h => by
    have hlevel : (level.resolved scope).warnings = (level.resolved other).warnings := by
      simp only [Level.resolved, resolve, resolveText_snd_congr h]
    rw [complaints, complaints, hlevel, complaints_congr (h.handOn level)]

/-! ## Builds -/

/-- A walk with globals of given names fails alike for all values, or takes one chain with the
same warnings for all values and puts the values into fixed places of the page. -/
theorem Walk.rendered_pieces (walk : Walk) (names : List Text) :
    (∃ e, ∀ globals : Scope, globals.Binds names → walk.rendered globals [] = .error e) ∨
      ∃ chain warnings pieces,
        (∀ name, Piece.global name ∈ pieces → name ∈ names) ∧
        ∀ globals : Scope, globals.Binds names →
          walk.rendered globals [] = .ok ⟨assemble globals pieces, chain, warnings⟩ := by
  unfold Walk.rendered
  cases walk.ending with
  | error e => exact Or.inl ⟨e, fun _ _ => rfl⟩
  | ok last =>
    let blank : Scope := Dict.ofList (names.map fun x => (x, []))
    have hblank : blank.Binds names := binds_ofList names fun _ => []
    refine Or.inr ⟨last.chain, complaints blank walk.levels,
      pagePieces (.ofNames names) walk.levels,
      within_pagePieces (Sketch.within_ofNames names), fun globals h => ?_⟩
    have hpage : page globals walk.levels = _ := page_eq_assemble (Sketch.fits_ofNames h)
    have hsame : SameNames globals blank := fun x =>
      Bool.eq_iff_iff.2 ((h x).trans (hblank x).symm)
    rw [Except.map, hpage, complaints_congr hsame, List.nil_append]

/-- A build with globals of given names fails alike for all values, or takes one chain
with the same warnings for all values and puts the values into fixed places of the
page. So it is over every source, and for every way to load after every number of loads,
where it may also be that the build has not ended for any values. -/
theorem build_opaque (rules : Rules) (entry : Path) (names : List Text) :
    (∀ s : Source,
      (∃ e, ∀ globals : Scope, globals.Binds names → s.build rules entry globals = .error e) ∨
        ∃ chain warnings pieces,
          (∀ name, Piece.global name ∈ pieces → name ∈ names) ∧
          ∀ globals : Scope, globals.Binds names →
            s.build rules entry globals = .ok ⟨assemble globals pieces, chain, warnings⟩) ∧
    ∀ (load : Loader) (n : Nat),
      (∀ globals, buildWithin load rules n entry .empty globals [] = none) ∨
      (∃ e, ∀ globals : Scope, globals.Binds names →
        buildWithin load rules n entry .empty globals [] = some (.error e)) ∨
        ∃ chain warnings pieces,
          (∀ name, Piece.global name ∈ pieces → name ∈ names) ∧
          ∀ globals : Scope, globals.Binds names →
            buildWithin load rules n entry .empty globals [] =
              some (.ok ⟨assemble globals pieces, chain, warnings⟩) := by
  refine ⟨fun s => ?_, fun load n => ?_⟩
  · simp only [Source.build_eq]
    exact (s.walk rules entry).rendered_pieces names
  · simp only [buildWithin_eq]
    cases walkWithin load rules n entry .empty with
    | none => exact Or.inl fun _ => rfl
    | some walk =>
      simp only [Option.map_some, Option.some.injEq]
      exact Or.inr (walk.rendered_pieces names)

end Folio
