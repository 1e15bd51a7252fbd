import Folio.Proofs.Template.Shape

/-!
# Faults in the shape of a document

What is wrong with a shaping statement is said of the statement and of those before it
(`Statement.Faulty`), without going through the document. `FirstFault` picks the first
statement with something wrong.

`segment_fault` : a document is refused exactly when one of its statements is faulty, for
what is wrong with the first of them, and the text behind that statement has no part in
it. For the last point the text is broken behind the statement (`items_append_statement`).
-/

namespace Folio

/-- What is wrong with a statement, where `named` says whether a parent was named before
it. Any number of arguments but one is wrong before anything else is. -/
inductive Statement.Faulty (strict named : Bool) (s : Statement) : ShapeError → Prop
  | arguments (shapes : s.isShaping = true) (args : s.args.length ≠ 1) :
    Faulty strict named s (.invalidArguments s.command s.args.length)
  | again (inherits : s.isInherit = true) (args : s.args.length = 1) (before : named = true) :
    Faulty strict named s .duplicateInherit
  | early {name : Text} (opens : s.isOpening = true) (args : s.args = [name])
      (rule : strict = true) (before : named = false) :
    Faulty strict named s (.fillWithoutParent name)

/-- Whether `s` is the first faulty one of some statements and `fault` is what is wrong
with it, where `named` says whether a parent was named before all of them. -/
def FirstFault (strict named : Bool) (all : List Statement) (s : Statement)
    (fault : ShapeError) : Prop :=
  ∃ before after, all = before ++ s :: after ∧
    s.Faulty strict (named || before.any Statement.isInherit) fault ∧
    ∀ front x back, before = front ++ x :: back →
      ∀ other, ¬x.Faulty strict (named || front.any Statement.isInherit) other

/-- Whether `s` opens a section and no parent is named before it. -/
def OpensEarly (all : List Statement) (s : Statement) : Prop :=
  ∃ before after, all = before ++ s :: after ∧ s.isOpening = true ∧
    ∀ x ∈ before, x.isInherit = false

/-! ## The fault of one statement -/

namespace Statement

theorem mark?_eq_misused_iff {s : Statement} {command : Text} {got : Nat} :
    mark? s.body = some (.misused command got) ↔
      s.isShaping = true ∧ s.args.length ≠ 1 ∧ command = s.command ∧ got = s.args.length := by
  rw [mark?_body, isShaping]
  rcases hargs : s.args with _ | ⟨a, _ | ⟨b, args⟩⟩ <;> cases s.isInherit <;>
    cases s.isOpening <;> simp [eq_comm]

/-- A statement is faulty when its mark is. -/
theorem faulty_iff {s : Statement} {strict named : Bool} {fault : ShapeError} :
    s.Faulty strict named fault ↔
      ∃ m, mark? s.body = some m ∧ m.fault? strict named = some fault := by
  constructor
  · intro h
    cases h with
    | arguments shapes args => exact ⟨_, mark?_eq_misused_iff.2 ⟨shapes, args, rfl, rfl⟩, rfl⟩
    | again inherits args before =>
      obtain ⟨target, hargs⟩ := List.length_eq_one_iff.1 args
      exact ⟨_, mark?_eq_inherit_iff.2 ⟨inherits, hargs⟩, if_pos before⟩
    | early opens args rule before =>
      exact ⟨_, mark?_eq_opening_iff.2 ⟨opens, args⟩, by rw [rule, before]; rfl⟩
  · rintro ⟨m, hm, hfault⟩
    cases m with
    | misused command got =>
      obtain ⟨shapes, args, rfl, rfl⟩ := mark?_eq_misused_iff.1 hm
      cases hfault
      exact .arguments shapes args
    | inherit target =>
      obtain ⟨inherits, args⟩ := mark?_eq_inherit_iff.1 hm
      rw [Mark.fault?] at hfault
      split at hfault
      · cases hfault
        exact .again inherits (by rw [args]; rfl) (by assumption)
      · cases hfault
    | opening name =>
      obtain ⟨opens, args⟩ := mark?_eq_opening_iff.1 hm
      rw [Mark.fault?] at hfault
      split at hfault
      · rename_i hearly
        cases hfault
        simp only [Bool.and_eq_true, Bool.not_eq_true'] at hearly
        exact .early opens args hearly.1 hearly.2
      · cases hfault

/-- A statement without a fault names a parent when its mark does. -/
theorem isSome_target?_eq {s : Statement} {strict named : Bool} {m : Mark}
    (hm : mark? s.body = some m) (h : m.fault? strict named = none) :
    m.target?.isSome = s.isInherit := by
  cases m with
  | misused command got => cases h
  | inherit target => rw [(mark?_eq_inherit_iff.1 hm).1]; rfl
  | opening name => rw [not_isInherit_of_isOpening (mark?_eq_opening_iff.1 hm).1]; rfl

theorem isInherit_of_mark?_eq_none {s : Statement} (h : mark? s.body = none) :
    s.isInherit = false := by
  have hshape := s.isSome_mark?
  rw [h, isShaping] at hshape
  exact (Bool.or_eq_false_iff.1 hshape.symm).1

end Statement

/-! ## The first fault -/

section

variable {strict named : Bool} {x s : Statement} {all : List Statement} {fault : ShapeError}

theorem firstFault_nil : ¬FirstFault strict named [] s fault := by
  rintro ⟨before, after, he, -⟩
  simp at he

theorem firstFault_cons :
    FirstFault strict named (x :: all) s fault ↔
      (x = s ∧ x.Faulty strict named fault) ∨
        (∀ other, ¬x.Faulty strict named other) ∧
          FirstFault strict (named || x.isInherit) all s fault := by
  constructor
  · rintro ⟨before, after, he, hs, hfirst⟩
    cases before with
    | nil =>
      obtain ⟨rfl, -⟩ := List.cons.inj he
      exact Or.inl ⟨rfl, by simpa using hs⟩
    | cons b before =>
      obtain ⟨rfl, rfl⟩ := List.cons.inj he
      refine Or.inr ⟨by simpa using hfirst [] x before rfl, before, after, rfl, ?_, ?_⟩
      · simpa [Bool.or_assoc] using hs
      · rintro front y back rfl
        simpa [Bool.or_assoc] using hfirst (x :: front) y back rfl
  · rintro (⟨rfl, hs⟩ | ⟨hx, before, after, rfl, hs, hfirst⟩)
    · exact ⟨[], all, rfl, by simpa using hs, by simp⟩
    · refine ⟨x :: before, after, rfl, by simpa [Bool.or_assoc] using hs, ?_⟩
      intro front y back he
      cases front with
      | nil =>
        obtain ⟨rfl, -⟩ := List.cons.inj he
        simpa using hx
      | cons b front =>
        obtain ⟨rfl, rfl⟩ := List.cons.inj he
        simpa [Bool.or_assoc] using hfirst front y back rfl

/-- Some statements have a first faulty one when they have a faulty one. -/
theorem exists_firstFault_iff : ∀ (all : List Statement) (named : Bool),
    (∃ s fault, FirstFault strict named all s fault) ↔
      ∃ before s after fault, all = before ++ s :: after ∧
        s.Faulty strict (named || before.any Statement.isInherit) fault
  | [], _ => by simp [firstFault_nil]
  | x :: all, named => by
    constructor
    · rintro ⟨s, fault, before, after, he, hs, -⟩
      exact ⟨before, s, after, fault, he, hs⟩
    · rintro ⟨before, s, after, fault, he, hs⟩
      by_cases hx : ∃ other, x.Faulty strict named other
      · obtain ⟨other, hx⟩ := hx
        exact ⟨x, other, firstFault_cons.2 (Or.inl ⟨rfl, hx⟩)⟩
      · cases before with
        | nil =>
          obtain ⟨rfl, -⟩ := List.cons.inj he
          exact absurd ⟨fault, by simpa using hs⟩ hx
        | cons b before =>
          obtain ⟨rfl, rfl⟩ := List.cons.inj he
          obtain ⟨t, other, ht⟩ := (exists_firstFault_iff _ (named || x.isInherit)).2
            ⟨before, s, after, fault, rfl, by simpa [Bool.or_assoc] using hs⟩
          exact ⟨t, other, firstFault_cons.2 (Or.inr ⟨not_exists.1 hx, ht⟩)⟩

/-- The fault that is found at the cuts of a document is that of its first faulty
statement. -/
theorem firstFault?_eq_some_iff : ∀ {all : List Statement} {cuts : List Cut} {named : Bool},
    cuts.map Cut.mark = (all.map Statement.body).filterMap mark? →
    (firstFault? strict named cuts = some fault ↔ ∃ s, FirstFault strict named all s fault)
  | [], cuts, named, h => by
    obtain rfl : cuts = [] := List.map_eq_nil_iff.1 h
    simp [firstFault?, firstFault_nil]
  | x :: all, cuts, named, h => by
    simp only [firstFault_cons, exists_or, exists_eq_left', exists_and_left]
    cases hm : mark? x.body with
    | none =>
      rw [List.map_cons, List.filterMap_cons_none hm] at h
      have hplain : ∀ other, ¬x.Faulty strict named other := by
        simp [Statement.faulty_iff, hm]
      rw [firstFault?_eq_some_iff h, Statement.isInherit_of_mark?_eq_none hm, Bool.or_false]
      simp [hplain]
    | some m =>
      rw [List.map_cons, List.filterMap_cons_some hm] at h
      obtain ⟨cut, rest, rfl, rfl, hrest⟩ := List.map_eq_cons_iff.1 h
      have hfaulty : ∀ other, x.Faulty strict named other ↔
          cut.mark.fault? strict named = some other := by
        simp [Statement.faulty_iff, hm]
      rw [firstFault?_cons]
      simp only [hfaulty]
      cases hx : cut.mark.fault? strict named with
      | some other => simp
      | none =>
        rw [Option.none_or, Statement.isSome_target?_eq hm hx, firstFault?_eq_some_iff hrest]
        simp

theorem filterMap_mark?_locate : ∀ (l : List Item) (start : Nat),
    ((locate start l).map Statement.body).filterMap mark? = l.filterMap Item.mark?
  | [], _ => rfl
  | .char _ :: rest, _ => filterMap_mark?_locate rest _
  | .statement body :: rest, start => by
    have hbody : Item.mark? (.statement body) = mark? body := rfl
    rw [locate, List.map_cons, List.filterMap_cons, List.filterMap_cons, hbody,
      filterMap_mark?_locate rest]

end

/-! ## Refused documents -/

section

variable {rules : Rules} {doc : Document} {e : SegmentError}

theorem segment_eq_error_iff_firstFault? :
    segment rules doc = .error e ↔ e.path = doc.path ∧
      firstFault? rules.strictFill false (cutAtMarks (items doc.text)).2 = some e.fault := by
  unfold segment
  simp only
  split
  · rename_i fault hfault
    obtain ⟨path, other⟩ := e
    simp [hfault, eq_comm]
  · rename_i hfault
    split <;> simp [hfault]

/-- A document is refused for its first faulty statement. -/
theorem segment_eq_error_iff :
    segment rules doc = .error e ↔ e.path = doc.path ∧
      ∃ s, FirstFault rules.strictFill false (scan doc.text) s e.fault := by
  rw [segment_eq_error_iff_firstFault?, firstFault?_eq_some_iff]
  rw [scan, filterMap_mark?_locate, map_mark_cutAtMarks]

theorem exists_segment_eq_error_iff :
    (∃ e, segment rules doc = .error e) ↔
      ∃ s fault, FirstFault rules.strictFill false (scan doc.text) s fault := by
  simp only [segment_eq_error_iff]
  constructor
  · rintro ⟨e, -, s, hs⟩
    exact ⟨s, e.fault, hs⟩
  · rintro ⟨s, fault, hs⟩
    exact ⟨⟨doc.path, fault⟩, rfl, s, hs⟩

theorem two_le_length_filter_isInherit {all : List Statement} :
    2 ≤ (all.filter Statement.isInherit).length ↔
      ∃ before s after, all = before ++ s :: after ∧ s.isInherit = true ∧
        before.any Statement.isInherit = true := by
  constructor
  · intro h
    obtain ⟨x, s, rest, hfilter⟩ : ∃ x s rest, all.filter Statement.isInherit = x :: s :: rest := by
      match all.filter Statement.isInherit, h with
      | x :: s :: rest, _ => exact ⟨x, s, rest, rfl⟩
    obtain ⟨l₁, l₂, rfl, -, hx, hl₂⟩ := List.filter_eq_cons_iff.1 hfilter
    obtain ⟨l₃, l₄, rfl, -, hs, -⟩ := List.filter_eq_cons_iff.1 hl₂
    exact ⟨l₁ ++ x :: l₃, s, l₄, by simp, hs, by simp [hx]⟩
  · rintro ⟨before, s, after, rfl, hs, hbefore⟩
    obtain ⟨x, hx, hinherit⟩ := List.any_eq_true.1 hbefore
    have hpos : 0 < (before.filter Statement.isInherit).length :=
      List.length_pos_of_mem (List.mem_filter.2 ⟨hx, hinherit⟩)
    rw [List.filter_append, List.filter_cons_of_pos hs, List.length_append, List.length_cons]
    omega

/-- There is a faulty statement exactly when one has not one argument, or two name a
parent, or, under the strict rule, one opens a section too early. -/
theorem exists_faulty_iff {strict : Bool} {all : List Statement} :
    (∃ before s after fault, all = before ++ s :: after ∧
        s.Faulty strict (before.any Statement.isInherit) fault) ↔
      (∃ s ∈ all, s.isShaping = true ∧ s.args.length ≠ 1) ∨
        2 ≤ (all.filter Statement.isInherit).length ∨
        strict = true ∧ ∃ s, OpensEarly all s := by
  rw [two_le_length_filter_isInherit]
  constructor
  · rintro ⟨before, s, after, fault, rfl, hs⟩
    cases hs with
    | arguments shapes args => exact Or.inl ⟨s, by simp, shapes, args⟩
    | again inherits args hbefore =>
      exact Or.inr (Or.inl ⟨before, s, after, rfl, inherits, hbefore⟩)
    | early opens args rule hbefore =>
      refine Or.inr (Or.inr ⟨rule, s, before, after, rfl, opens, ?_⟩)
      simpa using hbefore
  · intro h
    -- a wrong number of arguments is the fault of the statement in all three cases
    by_cases hargs : ∃ s ∈ all, s.isShaping = true ∧ s.args.length ≠ 1
    · obtain ⟨s, hs, shapes, args⟩ := hargs
      obtain ⟨before, after, rfl⟩ := List.append_of_mem hs
      exact ⟨before, s, after, _, rfl, .arguments shapes args⟩
    have hone : ∀ s ∈ all, s.isShaping = true → s.args.length = 1 := fun s hs shapes =>
      Classical.byContradiction fun args => hargs ⟨s, hs, shapes, args⟩
    rcases h with h | ⟨before, s, after, rfl, inherits, hbefore⟩ |
      ⟨rule, s, before, after, rfl, opens, hbefore⟩
    · exact absurd h hargs
    · have args := hone s (by simp) (by simp [Statement.isShaping, inherits])
      exact ⟨before, s, after, _, rfl, .again inherits args hbefore⟩
    · have args := hone s (by simp) (by simp [Statement.isShaping, opens])
      obtain ⟨name, args⟩ := List.length_eq_one_iff.1 args
      exact ⟨before, s, after, _, rfl, .early opens args rule (by simpa using hbefore)⟩

theorem exists_segment_eq_error_iff_faulty :
    (∃ e, segment rules doc = .error e) ↔
      (∃ s ∈ scan doc.text, s.isShaping = true ∧ s.args.length ≠ 1) ∨
        2 ≤ ((scan doc.text).filter Statement.isInherit).length ∨
        rules.strictFill = true ∧ ∃ s, OpensEarly (scan doc.text) s := by
  rw [exists_segment_eq_error_iff, exists_firstFault_iff, ← exists_faulty_iff]
  simp only [Bool.false_or]

/-- The text behind the first faulty statement has no part in the refusal. -/
theorem exists_segment_append_eq_error {s : Statement} {fault : ShapeError}
    (h : FirstFault rules.strictFill false (scan doc.text) s fault) :
    ∃ front back, doc.text = front ++ back ∧ front.size = s.stop ∧
      ∀ other, segment rules ⟨doc.path, front ++ other⟩ = .error ⟨doc.path, fault⟩ := by
  obtain ⟨before, after, hscan, hs, hfirst⟩ := h
  obtain ⟨a, b, hitems, hstart, hbefore, -⟩ := exists_of_locate_eq hscan
  refine ⟨written (a ++ [.statement s.body]), written b, ?_, ?_, fun other => ?_⟩
  · rw [← written_append, List.append_assoc, List.singleton_append, ← hitems, written_items]
  · rw [written_append, Text.size_append, Statement.stop, hstart, Nat.zero_add]
    simp [Statement.text, written, Item.text]
  · refine segment_eq_error_iff.2 ⟨rfl, s, before, locate s.stop (items other), ?_, hs, hfirst⟩
    rw [scan, items_append_statement hitems, locate_append, hbefore, locate, ← hstart]
    rfl

end

/-- A document is refused exactly when a shaping statement has not one argument, a second
one names a parent, or, under the strict rule, a section is opened with no parent named
before it. It is refused for the first statement of which that is so, under its own path,
and whatever stands behind that statement. -/
theorem segment_fault (rules : Rules) (doc : Document) :
    ((∃ e, segment rules doc = .error e) ↔
      (∃ s ∈ scan doc.text, s.isShaping = true ∧ s.args.length ≠ 1) ∨
        2 ≤ ((scan doc.text).filter Statement.isInherit).length ∨
        rules.strictFill = true ∧ ∃ s, OpensEarly (scan doc.text) s) ∧
    (∀ e, segment rules doc = .error e ↔ e.path = doc.path ∧
      ∃ s, FirstFault rules.strictFill false (scan doc.text) s e.fault) ∧
    ∀ s fault, FirstFault rules.strictFill false (scan doc.text) s fault →
      ∃ front back, doc.text = front ++ back ∧ front.size = s.stop ∧
        ∀ other, segment rules ⟨doc.path, front ++ other⟩ = .error ⟨doc.path, fault⟩ :=
  ⟨exists_segment_eq_error_iff_faulty, fun _ => segment_eq_error_iff,
    fun _ _ => exists_segment_append_eq_error⟩

/-- A section is opened early, a second parent is named, and an opening has no name. -/
def misshapen : Document :=
  ⟨⟨['a']⟩, "$<fill x>$$<inherit b>$1$<inherit c>$2$<def>$".toList⟩

theorem segment_fault_misshapen :
    (∃ e, segment ⟨⟨['r']⟩, true⟩ misshapen = .error e) ∧
      FirstFault false false (scan misshapen.text) ⟨"inherit c".toList, 24⟩ .duplicateInherit ∧
      ∃ front back, misshapen.text = front ++ back ∧ front.size = 37 ∧
        ∀ other, segment ⟨⟨['r']⟩, false⟩ ⟨misshapen.path, front ++ other⟩ =
          .error ⟨misshapen.path, .duplicateInherit⟩ := by
  have hopening : mark? "fill x".toList = some (.opening ['x']) := by cbv
  have hinherit : mark? "inherit b".toList = some (.inherit ['b']) := by cbv
  have hplain : Statement.isInherit ⟨"fill x".toList, 0⟩ = false := by cbv
  have hscan : scan misshapen.text = [⟨"fill x".toList, 0⟩, ⟨"inherit b".toList, 10⟩,
      ⟨"inherit c".toList, 24⟩, ⟨"def".toList, 38⟩] := by cbv
  have hfirst : FirstFault false false (scan misshapen.text) ⟨"inherit c".toList, 24⟩
      .duplicateInherit := by
    rw [hscan, firstFault_cons, firstFault_cons, firstFault_cons]
    refine Or.inr ⟨fun other hother => ?_, Or.inr ⟨fun other hother => ?_, Or.inl ⟨rfl, ?_⟩⟩⟩
    · obtain ⟨m, hm, hfault⟩ := Statement.faulty_iff.1 hother
      cases hopening.symm.trans hm
      cases hfault
    · obtain ⟨m, hm, hfault⟩ := Statement.faulty_iff.1 hother
      cases hinherit.symm.trans hm
      rw [hplain] at hfault
      cases hfault
    · exact .again (by cbv) (by cbv) (by cbv)
  refine ⟨(segment_fault ⟨⟨['r']⟩, true⟩ misshapen).1.2 (Or.inr (Or.inl ?_)), hfirst,
    (segment_fault ⟨⟨['r']⟩, false⟩ misshapen).2.2 _ _ hfirst⟩
  rw [hscan]
  cbv

end Folio
