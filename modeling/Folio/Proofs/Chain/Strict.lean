import Folio.Proofs.Chain.Agreement
import Folio.Proofs.Template.Faults

/-!
# The strict rule

Under the strict rule a document may not open a section before it names a parent; under
the relaxed rule it may. `strict_restricts` compares the builds under both : the strict
rule only ever refuses, for a document that the relaxed build goes through, and for the
first section that this document opens.

A single document is treated alike under both rules, or is refused under the strict one
for its first opening (`segment_strict_cases`). So the two walks along a chain are the
same up to the first document that is refused (`walkWithin_strict_cases`).
-/

namespace Folio

/-- Whether the first of some statements that opens a section opens `name`, and no parent
is named before it. -/
def FirstOpensEarly (all : List Statement) (name : Text) : Prop :=
  ∃ before s after, all = before ++ s :: after ∧ s.isOpening = true ∧ s.args = [name] ∧
    ∀ x ∈ before, x.isShaping = false

/-- How the result of a build under the strict rule relates to its result under the
relaxed one, where `documents` are those that the relaxed build went through. A build that
has not ended has no result. -/
structure Restricts (documents : List Document)
    (strict relaxed : Option (Except ChainError Rendered)) : Prop where
  succeeds : ∀ r, strict = some (.ok r) → relaxed = some (.ok r)
  /-- The strict rule refuses one of the documents, and it is the first to open a section
  early. -/
  refuses : ∀ r, relaxed = some (.ok r) → strict ≠ some (.ok r) →
    ∃ below doc above name, documents = below ++ doc :: above ∧
      strict = some (.error (.segment ⟨doc.path, .fillWithoutParent name⟩)) ∧
      FirstOpensEarly (scan doc.text) name ∧
      ∀ other ∈ below, ∀ s, ¬OpensEarly (scan other.text) s
  fails : ∀ e, strict = some (.error e) →
    (∀ path name, e ≠ .segment ⟨path, .fillWithoutParent name⟩) → relaxed = some (.error e)

/-! ## One document -/

/-- A fault that is no early opening is found under both rules. -/
theorem firstFault?_relaxed : ∀ {cuts : List Cut} {named : Bool},
    (∀ name, firstFault? true named cuts ≠ some (.fillWithoutParent name)) →
    firstFault? false named cuts = firstFault? true named cuts
  | [], _, _ => rfl
  | cut :: rest, named, h => by
    rw [firstFault?_cons] at h
    rw [firstFault?_cons, firstFault?_cons]
    have hmark : cut.mark.fault? false named = cut.mark.fault? true named := by
      cases hm : cut.mark with
      | misused command got => rfl
      | inherit target => rfl
      | opening name =>
        cases named with
        | true => rfl
        | false => exact absurd (by rw [hm]; rfl) (h name)
    rw [hmark]
    cases hfault : cut.mark.fault? true named with
    | some fault => rfl
    | none =>
      rw [hfault] at h
      exact firstFault?_relaxed h

/-- The first fault is an early opening only at the first opening. -/
theorem FirstFault.firstOpensEarly {all : List Statement} {s : Statement} {name : Text}
    (h : FirstFault true false all s (.fillWithoutParent name)) : FirstOpensEarly all name := by
  obtain ⟨before, after, rfl, hs, hfirst⟩ := h
  cases hs with
  | early opens args rule hbefore =>
    have hplain : ∀ x ∈ before, x.isInherit = false := by simpa using hbefore
    refine ⟨before, s, after, rfl, opens, args, fun x hx => ?_⟩
    rw [Statement.isShaping, hplain x hx, Bool.false_or]
    refine Bool.eq_false_iff.2 fun hopens => ?_
    -- an opening in front of it is faulty itself, for its arguments or because it is early
    obtain ⟨front, back, rfl⟩ := List.append_of_mem hx
    have hfront : (false || front.any Statement.isInherit) = false := by
      simpa using fun y hy => hplain y (List.mem_append_left _ hy)
    by_cases hargs : x.args.length = 1
    · obtain ⟨other, hother⟩ := List.length_eq_one_iff.1 hargs
      exact hfirst front x back rfl _ (.early hopens hother rfl hfront)
    · exact hfirst front x back rfl _ (.arguments (by simp [Statement.isShaping, hopens]) hargs)

/-- A document is treated alike under both rules, or refused for its first opening. -/
theorem segment_strict_cases (root : Path) (doc : Document) :
    segment ⟨root, true⟩ doc = segment ⟨root, false⟩ doc ∨
      ∃ name, segment ⟨root, true⟩ doc = .error ⟨doc.path, .fillWithoutParent name⟩ ∧
        FirstOpensEarly (scan doc.text) name := by
  by_cases hearly : ∃ name, firstFault? true false (cutAtMarks (items doc.text)).2 =
      some (.fillWithoutParent name)
  · obtain ⟨name, hname⟩ := hearly
    have hrefused : segment ⟨root, true⟩ doc = .error ⟨doc.path, .fillWithoutParent name⟩ :=
      segment_eq_error_iff_firstFault?.2 ⟨rfl, hname⟩
    obtain ⟨-, s, hs⟩ := segment_eq_error_iff.1 hrefused
    exact Or.inr ⟨name, hrefused, hs.firstOpensEarly⟩
  · have hsame := firstFault?_relaxed (not_exists.1 hearly)
    left
    simp only [segment, hsame]

theorem not_opensEarly_of_segment {root : Path} {doc : Document} {seg : Segmented}
    (h : segment ⟨root, true⟩ doc = .ok seg) (s : Statement) : ¬OpensEarly (scan doc.text) s := by
  intro hs
  have hrefused : ∃ e, segment ⟨root, true⟩ doc = .error e :=
    exists_segment_eq_error_iff_faulty.2 (Or.inr (Or.inr ⟨rfl, s, hs⟩))
  obtain ⟨e, he⟩ := hrefused
  rw [h] at he
  cases he

/-! ## Walks -/

/-- Whether the walk under the strict rule stops at a document that opens a section early
and that the relaxed walk, if it ends well, goes through. -/
inductive Refused (relaxed : Option Walk) : Option Walk → Prop
  | intro (below : List Level) (doc : Document) (name : Text)
    (plain : ∀ level ∈ below, ∀ s, ¬OpensEarly (scan level.document.text) s)
    (early : FirstOpensEarly (scan doc.text) name)
    (passed : ∀ walk last, relaxed = some walk → walk.ending = .ok last →
      ∃ level above, walk.levels = below ++ level :: above ∧ level.document = doc) :
    Refused relaxed (some ⟨below, .error (.segment ⟨doc.path, .fillWithoutParent name⟩)⟩)

theorem Refused.cons {strict relaxed : Option Walk} (h : Refused relaxed strict) {level : Level}
    (hlevel : ∀ s, ¬OpensEarly (scan level.document.text) s) :
    Refused (relaxed.map (Walk.cons level)) (strict.map (Walk.cons level)) := by
  obtain ⟨below, doc, name, plain, early, passed⟩ := h
  refine .intro (level :: below) doc name ?_ early fun walk last hwalk hlast => ?_
  · intro other hother
    rcases List.mem_cons.1 hother with rfl | hother
    · exact hlevel
    · exact plain other hother
  · obtain ⟨rest, hrest, rfl⟩ := Option.map_eq_some_iff.1 hwalk
    obtain ⟨stop, above, hlevels, hstop⟩ := passed rest last hrest hlast
    exact ⟨stop, above, by rw [Walk.levels_cons, hlevels, List.cons_append], hstop⟩

/-- A step of a walk is the same under both rules, or the document is refused. -/
theorem enter_strict_cases (load : Loader) (root p : Path) (trail : Trail) :
    enter load ⟨root, true⟩ p trail = enter load ⟨root, false⟩ p trail ∨
      ∃ doc trail' name, load p trail = .ok (doc, trail') ∧
        enter load ⟨root, true⟩ p trail =
          .error (.segment ⟨doc.path, .fillWithoutParent name⟩) ∧
        FirstOpensEarly (scan doc.text) name := by
  unfold enter
  cases hload : load p trail with
  | error e => exact Or.inl rfl
  | ok loaded =>
    obtain ⟨doc, trail'⟩ := loaded
    rcases segment_strict_cases root doc with hsame | ⟨name, hrefused, hearly⟩
    · left
      simp only [hsame]
    · refine Or.inr ⟨doc, trail', name, rfl, ?_, hearly⟩
      simp only [hrefused]

/-- A walk that ends well begins with what it has loaded. -/
theorem exists_level_of_walkWithin {load : Loader} {rules : Rules} {n : Nat} {p : Path}
    {trail trail' last : Trail} {doc : Document} {walk : Walk}
    (hload : load p trail = .ok (doc, trail'))
    (h : walkWithin load rules n p trail = some walk) (hw : walk.ending = .ok last) :
    ∃ level above, walk.levels = level :: above ∧ level.document = doc := by
  cases n with
  | zero => cases h
  | succ n =>
    rw [walkWithin] at h
    split at h
    · cases h
      cases hw
    · rename_i level t he
      have hdoc : level.document = doc := by
        have hl := (load_of_enter he).1
        rw [hload] at hl
        cases hl
        rfl
      split at h
      · cases h
        exact ⟨level, [], rfl, hdoc⟩
      · obtain ⟨rest, -, rfl⟩ := Option.map_eq_some_iff.1 h
        exact ⟨level, rest.levels, rfl, hdoc⟩

/-- A walk is the same under both rules, or is refused under the strict one. -/
theorem walkWithin_strict_cases (load : Loader) (root : Path) :
    ∀ (n : Nat) (p : Path) (trail : Trail),
      walkWithin load ⟨root, true⟩ n p trail = walkWithin load ⟨root, false⟩ n p trail ∨
        Refused (walkWithin load ⟨root, false⟩ n p trail)
          (walkWithin load ⟨root, true⟩ n p trail)
  | 0, _, _ => Or.inl rfl
  | n + 1, p, trail => by
    rcases enter_strict_cases load root p trail with hsame | ⟨doc, trail', name, hl, hs, hearly⟩
    · rw [walkWithin, walkWithin, ← hsame]
      cases he : enter load ⟨root, true⟩ p trail with
      | error e => exact Or.inl rfl
      | ok entered =>
        obtain ⟨level, trail'⟩ := entered
        have hplain := not_opensEarly_of_segment (load_of_enter he).2
        cases hp : level.segmented.parent with
        | none => exact Or.inl (by simp [hp])
        | some parent =>
          simp only [hp]
          rcases walkWithin_strict_cases load root n parent trail' with hrest | hrest
          · rw [hrest]
            exact Or.inl rfl
          · exact Or.inr (hrest.cons hplain)
    · have hrefused : walkWithin load ⟨root, true⟩ (n + 1) p trail =
          some ⟨[], .error (.segment ⟨doc.path, .fillWithoutParent name⟩)⟩ := by
        rw [walkWithin, hs]
      right
      rw [hrefused]
      exact .intro [] doc name (by simp) hearly fun walk last => exists_level_of_walkWithin hl

/-! ## Builds -/

theorem restricts_of_walks {strict relaxed : Option Walk} {documents : List Document}
    (h : strict = relaxed ∨ Refused relaxed strict)
    (hdocs : ∀ walk, relaxed = some walk → documents = walk.levels.map Level.document)
    (globals : Scope) :
    Restricts documents (strict.map fun walk => walk.rendered globals [])
      (relaxed.map fun walk => walk.rendered globals []) := by
  rcases h with rfl | ⟨below, doc, name, plain, early, passed⟩
  · exact ⟨fun _ hr => hr, fun _ hr hne => absurd hr hne, fun _ he _ => he⟩
  have hstrict : Walk.rendered ⟨below, .error (.segment ⟨doc.path, .fillWithoutParent name⟩)⟩
      globals [] = .error (.segment ⟨doc.path, .fillWithoutParent name⟩) :=
    Walk.rendered_eq_error_iff.2 rfl
  rw [Option.map_some, hstrict]
  refine ⟨fun r hr => ?_, fun r hr _ => ?_, fun e he hother => ?_⟩
  · cases hr
  · obtain ⟨walk, rfl, hrendered⟩ := Option.map_eq_some_iff.1 hr
    obtain ⟨last, hlast⟩ := Walk.exists_ending_of_rendered hrendered
    obtain ⟨level, above, hlevels, rfl⟩ := passed walk last rfl hlast
    refine ⟨below.map Level.document, level.document, above.map Level.document, name, ?_, rfl,
      early, ?_⟩
    · rw [hdocs walk rfl, hlevels, List.map_append, List.map_cons]
    · intro other hother
      obtain ⟨l, hl, rfl⟩ := List.mem_map.1 hother
      exact plain l hl
  · cases he
    exact absurd rfl (hother doc.path name)

/-- The strict rule restricts the relaxed one. Over every source, and for every way to load
after every number of loads, a build that succeeds under the strict rule succeeds with the
same result under the relaxed one; where only the relaxed build succeeds, the strict one is
refused for the first document of the relaxed chain that opens a section early, and for its
first opening; and every other error is that of the relaxed build. -/
theorem strict_restricts (root entry : Path) (globals : Scope) :
    (∀ s : Source, ∃ documents : List Document,
      (∀ r, s.build ⟨root, false⟩ entry globals = .ok r →
        r.chain = documents.map Document.path ∧
          ∀ doc ∈ documents, s.read doc.path = .ok doc.text) ∧
      Restricts documents (some (s.build ⟨root, true⟩ entry globals))
        (some (s.build ⟨root, false⟩ entry globals))) ∧
    ∀ (load : Loader) (n : Nat), ∃ documents : List Document,
      (∀ walk, walkWithin load ⟨root, false⟩ n entry .empty = some walk →
        documents = walk.levels.map Level.document) ∧
      Restricts documents (buildWithin load ⟨root, true⟩ n entry .empty globals [])
        (buildWithin load ⟨root, false⟩ n entry .empty globals []) := by
  refine ⟨fun s => ?_, fun load n => ?_⟩
  · refine ⟨(s.walk ⟨root, false⟩ entry).levels.map Level.document, fun r hr => ?_, ?_⟩
    · obtain ⟨hclimb, rfl⟩ := Source.climb_of_build_eq_ok hr
      refine ⟨(List.map_map ..).symm, fun doc hdoc => ?_⟩
      obtain ⟨level, hlevel, rfl⟩ := List.mem_map.1 hdoc
      exact hclimb.read_eq level hlevel
    · have hlt : s.unseen .empty < s.documents.length + 1 :=
        Nat.lt_succ_of_le List.countP_le_length
      have hcases := walkWithin_strict_cases s.load root (s.documents.length + 1) entry .empty
      rw [Source.walkWithin_load hlt, Source.walkWithin_load hlt] at hcases
      rw [Source.build_eq, Source.build_eq]
      exact restricts_of_walks hcases (fun walk hwalk => by cases hwalk; rfl) globals
  · have hcases := walkWithin_strict_cases load root n entry .empty
    rw [buildWithin_eq, buildWithin_eq]
    -- a walk that has not ended has no documents
    cases hrelaxed : walkWithin load ⟨root, false⟩ n entry .empty with
    | none =>
      rw [hrelaxed] at hcases
      exact ⟨[], nofun, restricts_of_walks hcases nofun globals⟩
    | some walk =>
      rw [hrelaxed] at hcases
      have hdocs : ∀ other, some walk = some other →
          walk.levels.map Level.document = other.levels.map Level.document := by
        rintro other ⟨⟩
        rfl
      exact ⟨_, hdocs, restricts_of_walks hcases hdocs globals⟩

/-- A document that fills a section of its parent, and a parent that opens one without
naming any. -/
def unparented : Shelf :=
  (Shelf.empty.insert ⟨['a']⟩ "$<inherit b>$$<fill x>$1".toList).insert
    ⟨['b']⟩ "$<slot x>$$<def y>$2".toList

theorem strict_restricts_unparented :
    unparented.source.build ⟨⟨[]⟩, false⟩ ⟨['a']⟩ (Dict.ofList []) =
        .ok ⟨"12".toList, [⟨['a']⟩, ⟨['b']⟩], []⟩ ∧
      unparented.source.build ⟨⟨[]⟩, true⟩ ⟨['a']⟩ (Dict.ofList []) =
        .error (.segment ⟨⟨['b']⟩, .fillWithoutParent ['y']⟩) ∧
      ∃ documents : List Document, documents.map Document.path = [⟨['a']⟩, ⟨['b']⟩] ∧
        ∃ below doc above, documents = below ++ doc :: above ∧ doc.path = ⟨['b']⟩ ∧
          FirstOpensEarly (scan doc.text) ['y'] := by
  have hrelaxed : unparented.source.build ⟨⟨[]⟩, false⟩ ⟨['a']⟩ (Dict.ofList []) =
      .ok ⟨"12".toList, [⟨['a']⟩, ⟨['b']⟩], []⟩ := by cbv
  have hstrict : unparented.source.build ⟨⟨[]⟩, true⟩ ⟨['a']⟩ (Dict.ofList []) =
      .error (.segment ⟨⟨['b']⟩, .fillWithoutParent ['y']⟩) := by cbv
  obtain ⟨documents, hdocs, hrestricts⟩ :=
    (strict_restricts ⟨[]⟩ ⟨['a']⟩ (Dict.ofList [])).1 unparented.source
  obtain ⟨below, doc, above, name, hsplit, hrefused, hearly, -⟩ :=
    hrestricts.refuses _ (congrArg some hrelaxed) (by rw [hstrict]; simp)
  rw [hstrict] at hrefused
  simp only [Option.some.injEq, Except.error.injEq, ChainError.segment.injEq,
    SegmentError.mk.injEq, ShapeError.fillWithoutParent.injEq] at hrefused
  obtain ⟨hpath, rfl⟩ := hrefused
  exact ⟨hrelaxed, hstrict, documents, (hdocs _ hrelaxed).1.symm, below, doc, above, hsplit,
    hpath.symm, hearly⟩

end Folio
