import Mathlib
import Folio.Proofs.Statement.Places
import Folio.Proofs.Template.Sections
import Folio.Proofs.Text.Slice

/-!
# The shape of a document, read off its source

`segment` goes through a document once. What it answers can be said of the source and of
its shaping statements alone, which `shaping` lists with their places.

`segment_shape` : the parent is named by the only `inherit`; a section is the source from
the end of the last opening of its name up to the next opening, without the statements in
between; and the anonymous section of a document without a parent, or without an opening,
is the whole source without any shaping statement. `Text.excise?` is what is meant by the
source without some statements : slices of it, one after the other.

The sections are known as stretches of the items of the document. `locate_append` says
where the statements of a stretch stand, and `excise?_locate` that to cut them out of the
source leaves the items that `segment` keeps.
-/

namespace Folio

namespace Statement

/-- Whether a statement names a parent. -/
def isInherit (s : Statement) : Bool :=
  s.command = inheritCommand

/-- Whether a statement opens a section. -/
def isOpening (s : Statement) : Bool :=
  s.command = fillCommand ∨ s.command = defCommand

/-- Whether a statement shapes its document. -/
def isShaping (s : Statement) : Bool :=
  s.isInherit || s.isOpening

end Statement

/-- The shaping statements of a text, in order. -/
def shaping (t : Text) : List Statement :=
  (scan t).filter Statement.isShaping

/-- The text from byte `start` up to byte `stop` with some statements cut out. -/
def Text.excise? (t : Text) (start stop : Nat) : List Statement → Option Text
  | [] => t.slice? start stop
  | s :: rest =>
    (t.slice? start s.start).bind fun front => (t.excise? s.stop stop rest).map (front ++ ·)

/-- Whether `s` is the last of some shaping statements that opens the section `name`,
`between` are those after it up to the next opening, and `after` are all others. -/
structure OpensLast (all : List Statement) (name : Text) (s : Statement)
    (between after : List Statement) : Prop where
  place : ∃ before, all = before ++ s :: (between ++ after)
  opens : s.isOpening = true ∧ s.args = [name]
  between_plain : ∀ x ∈ between, x.isOpening = false
  next_opens : ∀ x ∈ after.head?, x.isOpening = true
  last : ∀ x ∈ after, x.isOpening = true → x.args ≠ [name]

/-- What the parent and the sections of a document are, read off its source. -/
structure Shape (rules : Rules) (text : Text) (seg : Segmented) : Prop where
  args : ∀ s ∈ shaping text, ∃ arg, s.args = [arg]
  parent : (∃ s target, (shaping text).filter Statement.isInherit = [s] ∧ s.args = [target] ∧
      seg.parent = some (rules.root.join ⟨target⟩)) ∨
    (shaping text).filter Statement.isInherit = [] ∧ seg.parent = none
  /-- The anonymous section of a document without a parent or without an opening. -/
  whole : (seg.parent = none ∨ ∀ s ∈ shaping text, s.isOpening = false) →
    seg.sections.get? anonymous = text.excise? 0 text.size (shaping text)
  /-- Every other section. -/
  named : ∀ name part, ¬(name = anonymous ∧
      (seg.parent = none ∨ ∀ s ∈ shaping text, s.isOpening = false)) →
    (seg.sections.get? name = some part ↔
      ∃ s between after, OpensLast (shaping text) name s between after ∧
        text.excise? s.stop ((after.head?.map Statement.start).getD text.size) between =
          some part)
  /-- Which sections there are. -/
  keys : ∀ name, (seg.sections.get? name).isSome ↔
    (∃ s ∈ shaping text, s.isOpening = true ∧ s.args = [name]) ∨
      name = anonymous ∧ (seg.parent = none ∨ ∀ s ∈ shaping text, s.isOpening = false)

/-! ## Statements and their marks -/

namespace Statement

theorem not_isInherit_of_isOpening {s : Statement} (h : s.isOpening = true) :
    s.isInherit = false := by
  simp only [isOpening, isInherit, decide_eq_true_eq, decide_eq_false_iff_not] at h ⊢
  rcases h with h | h <;> rw [h] <;> decide

/-- The mark of a statement, by its command and its arguments. -/
theorem mark?_body (s : Statement) : mark? s.body =
    if s.isInherit then
      match s.args with
      | [target] => some (.inherit target)
      | _ => some (.misused s.command s.args.length)
    else if s.isOpening then
      match s.args with
      | [name] => some (.opening name)
      | _ => some (.misused s.command s.args.length)
    else none := by
  unfold mark? isInherit isOpening command args
  cases splitWords s.body with
  | nil => rfl
  | cons command args =>
    rcases args with _ | ⟨a, _ | ⟨b, args⟩⟩ <;> by_cases hi : command = inheritCommand <;>
      by_cases ho : command = fillCommand ∨ command = defCommand <;> simp [hi, ho]

theorem isSome_mark? (s : Statement) : (mark? s.body).isSome = s.isShaping := by
  rw [mark?_body, isShaping]
  cases s.isInherit <;> cases s.isOpening <;> simp <;> split <;> rfl

theorem mark?_eq_opening_iff {s : Statement} {name : Text} :
    mark? s.body = some (.opening name) ↔ s.isOpening = true ∧ s.args = [name] := by
  rw [mark?_body]
  constructor
  · intro h
    split at h
    · split at h <;> cases h
    · split at h
      · rename_i ho
        split at h
        · rename_i hargs
          cases h
          exact ⟨ho, hargs⟩
        · cases h
      · cases h
  · rintro ⟨ho, hargs⟩
    rw [not_isInherit_of_isOpening ho, ho, hargs]
    rfl

theorem mark?_eq_inherit_iff {s : Statement} {target : Text} :
    mark? s.body = some (.inherit target) ↔ s.isInherit = true ∧ s.args = [target] := by
  rw [mark?_body]
  constructor
  · intro h
    split at h
    · rename_i hi
      split at h
      · rename_i hargs
        cases h
        exact ⟨hi, hargs⟩
      · cases h
    · split at h
      · split at h <;> cases h
      · cases h
  · rintro ⟨hi, hargs⟩
    rw [hi, hargs]
    rfl

end Statement

/-! ## Documents without a fault -/

/-- The path of the parent that a mark names. -/
def Mark.target? : Mark → Option Text
  | .inherit target => some target
  | _ => none

/-- What is wrong with a mark, where `named` says whether a parent was named before it. -/
def Mark.fault? (strict named : Bool) : Mark → Option ShapeError
  | .misused command got => some (.invalidArguments command got)
  | .inherit _ => if named then some .duplicateInherit else none
  | .opening name => if strict && !named then some (.fillWithoutParent name) else none

/-- The faults of a document are looked for cut by cut. -/
theorem firstFault?_cons (strict named : Bool) (cut : Cut) (rest : List Cut) :
    firstFault? strict named (cut :: rest) = (cut.mark.fault? strict named).or
      (firstFault? strict (named || cut.mark.target?.isSome) rest) := by
  rw [firstFault?]
  cases cut.mark with
  | misused command got => rfl
  | inherit target => cases named <;> simp [Mark.fault?, Mark.target?]
  | opening name =>
    cases hearly : strict && !named <;> simp [Mark.fault?, Mark.target?, hearly]

theorem Item.target?_eq_bind (i : Item) : i.target? = i.mark?.bind Mark.target? := by
  unfold Item.target?
  cases i.mark? with
  | none => rfl
  | some m => cases m <;> rfl

/-- Whether every shaping statement among some items has exactly one argument. -/
def WellFormed (l : List Item) : Prop :=
  ∀ i ∈ l, ∀ command got, i.mark? ≠ some (.misused command got)

theorem map_mark_cutAtMarks (l : List Item) :
    (cutAtMarks l).2.map Cut.mark = l.filterMap Item.mark? := by
  induction l with
  | nil => rfl
  | cons i rest ih =>
    cases hm : i.mark? with
    | none => rw [cutAtMarks_of_plain hm, ih, List.filterMap_cons_none hm]
    | some m => rw [cutAtMarks_of_mark? hm, List.filterMap_cons_some hm, List.map_cons, ih]

/-- Without a fault no statement is misused and at most one names a parent. -/
theorem of_firstFault?_eq_none {strict : Bool} : ∀ {cuts : List Cut} {inherited : Bool},
    firstFault? strict inherited cuts = none →
    (∀ m ∈ cuts.map Cut.mark, ∀ command got, m ≠ .misused command got) ∧
      ((cuts.map Cut.mark).filterMap Mark.target?).length + inherited.toNat ≤ 1
  | [], inherited, _ => by cases inherited <;> simp
  | ⟨m, text⟩ :: rest, inherited, h => by
    rw [firstFault?_cons, Option.or_eq_none_iff] at h
    obtain ⟨hfirst, hrest⟩ := h
    obtain ⟨hused, hone⟩ := of_firstFault?_eq_none hrest
    cases m with
    | misused command got => cases hfirst
    | inherit target =>
      refine ⟨by simpa using hused, ?_⟩
      cases inherited with
      | true => cases hfirst
      | false => simpa [Mark.target?] using hone
    | opening name =>
      refine ⟨by simpa using hused, ?_⟩
      rw [List.map_cons, List.filterMap_cons_none rfl]
      simpa [Mark.target?] using hone

section

variable {rules : Rules} {doc : Document} {seg : Segmented}

theorem firstFault?_of_segment (h : segment rules doc = .ok seg) :
    firstFault? rules.strictFill false (cutAtMarks (items doc.text)).2 = none := by
  unfold segment at h
  simp only at h
  split at h
  · cases h
  · assumption

theorem wellFormed_of_segment (h : segment rules doc = .ok seg) : WellFormed (items doc.text) := by
  intro i hi command got hm
  refine (of_firstFault?_eq_none (firstFault?_of_segment h)).1 (.misused command got) ?_ _ _ rfl
  rw [map_mark_cutAtMarks]
  exact List.mem_filterMap.2 ⟨i, hi, hm⟩

theorem length_targets_of_segment (h : segment rules doc = .ok seg) :
    ((items doc.text).filterMap Item.target?).length ≤ 1 := by
  have hone := (of_firstFault?_eq_none (firstFault?_of_segment h)).2
  rw [map_mark_cutAtMarks, List.filterMap_filterMap] at hone
  simpa only [← Item.target?_eq_bind, Bool.toNat_false, Nat.add_zero] using hone

end

/-! ## The statements of a stretch -/

theorem WellFormed.exists_args {l : List Item} (h : WellFormed l) {start : Nat} {s : Statement}
    (hs : s ∈ locate start l) (hshape : s.isShaping = true) : ∃ arg, s.args = [arg] := by
  have hplain := h _ (mem_of_mem_locate hs) s.command s.args.length
  have hmark : Item.mark? (.statement s.body) = mark? s.body := rfl
  rw [hmark, Statement.mark?_body] at hplain
  rw [Statement.isShaping, Bool.or_eq_true] at hshape
  split at hplain
  · split at hplain
    · exact ⟨_, by assumption⟩
    · exact absurd rfl hplain
  · rename_i hi
    rw [if_pos (hshape.resolve_left hi)] at hplain
    split at hplain
    · exact ⟨_, by assumption⟩
    · exact absurd rfl hplain

theorem opened?_statement (s : Statement) {name : Text} :
    (Item.statement s.body).opened? = some name ↔ s.isOpening = true ∧ s.args = [name] := by
  rw [← Statement.mark?_eq_opening_iff]
  have hmark : Item.mark? (.statement s.body) = mark? s.body := rfl
  unfold Item.opened?
  rw [hmark]
  cases mark? s.body with
  | none => simp
  | some m => cases m <;> simp

/-- Without a misused statement, an item opens a section when its statement does. -/
theorem WellFormed.opened?_eq_none_iff {l : List Item} (h : WellFormed l) {start : Nat}
    {s : Statement} (hs : s ∈ locate start l) :
    (Item.statement s.body).opened? = none ↔ s.isOpening = false := by
  rw [← Option.not_isSome_iff_eq_none, Option.isSome_iff_exists, ← Bool.not_eq_true]
  refine not_congr ⟨fun ⟨name, hn⟩ => ((opened?_statement s).1 hn).1, fun ho => ?_⟩
  obtain ⟨name, hargs⟩ := h.exists_args hs (by simp [Statement.isShaping, ho])
  exact ⟨name, (opened?_statement s).2 ⟨ho, hargs⟩⟩

/-- No statement among some items opens a section exactly when no item does. -/
theorem WellFormed.forall_opened?_iff {l : List Item} (h : WellFormed l) (start : Nat) :
    (∀ i ∈ l, i.opened? = none) ↔
      ∀ s ∈ (locate start l).filter Statement.isShaping, s.isOpening = false := by
  constructor
  · intro hl s hs
    have hs := (List.mem_filter.1 hs).1
    exact (h.opened?_eq_none_iff hs).1 (hl _ (mem_of_mem_locate hs))
  · intro hl i hi
    cases i with
    | char c => rfl
    | statement body =>
      obtain ⟨s, hs, rfl⟩ := exists_mem_locate hi start
      refine (h.opened?_eq_none_iff hs).2 ?_
      cases ho : s.isOpening with
      | false => rfl
      | true =>
        rw [← ho]
        exact hl s (List.mem_filter.2 ⟨hs, by simp [Statement.isShaping, ho]⟩)

/-- Some statement opens a section of a name exactly when some item does. -/
theorem exists_opened?_iff {l : List Item} (start : Nat) (name : Text) :
    (∃ i ∈ l, i.opened? = some name) ↔
      ∃ s ∈ (locate start l).filter Statement.isShaping, s.isOpening = true ∧ s.args = [name] := by
  constructor
  · rintro ⟨i, hi, hn⟩
    cases i with
    | char c => cases hn
    | statement body =>
      obtain ⟨s, hs, rfl⟩ := exists_mem_locate hi start
      have ho := (opened?_statement s).1 hn
      exact ⟨s, List.mem_filter.2 ⟨hs, by simp [Statement.isShaping, ho.1]⟩, ho⟩
  · rintro ⟨s, hs, ho⟩
    exact ⟨_, mem_of_mem_locate (List.mem_filter.1 hs).1, (opened?_statement s).2 ho⟩

/-! ## Cutting out -/

theorem excise?_append {t u v : Text} {start mid stop : Nat} {cuts : List Statement}
    (hu : t.slice? start mid = some u) (hv : t.excise? mid stop cuts = some v) :
    t.excise? start stop cuts = some (u ++ v) := by
  cases cuts with
  | nil => exact Text.slice?_trans hu hv
  | cons s rest =>
    obtain ⟨front, hfront, hrest⟩ := Option.bind_eq_some_iff.1 hv
    obtain ⟨back, hback, rfl⟩ := Option.map_eq_some_iff.1 hrest
    rw [Text.excise?, Text.slice?_trans hu hfront, Option.bind_some, hback, Option.map_some,
      List.append_assoc]

theorem filter_locate_of_plain {i : Item} (h : i.mark? = none) (start : Nat) (l : List Item) :
    (locate start (i :: l)).filter Statement.isShaping =
      (locate (start + i.text.size) l).filter Statement.isShaping := by
  cases i with
  | char c => rfl
  | statement body =>
    have hmark : mark? body = none := h
    rw [locate, List.filter_cons, ← Statement.isSome_mark?, hmark]
    rfl

theorem filter_locate_of_mark? {body : Text} {m : Mark} (h : mark? body = some m) (start : Nat)
    (l : List Item) :
    (locate start (.statement body :: l)).filter Statement.isShaping =
      ⟨body, start⟩ ::
        (locate (start + (delimited body).size) l).filter Statement.isShaping := by
  rw [locate, List.filter_cons, ← Statement.isSome_mark?, h]
  rfl

/-- To cut the shaping statements out of a stretch of a text leaves the items that are
kept. -/
theorem excise?_locate (l : List Item) : ∀ before after : Text,
    (before ++ (written l ++ after)).excise? before.size (before.size + (written l).size)
      ((locate before.size l).filter Statement.isShaping) = some (written (kept l)) := by
  induction l with
  | nil =>
    intro before after
    exact Text.slice?_eq_some_iff.2 ⟨before, after, rfl, rfl, rfl⟩
  | cons i l ih =>
    intro before after
    have htext : before ++ (written (i :: l) ++ after) =
        (before ++ i.text) ++ (written l ++ after) := by
      rw [written_cons, List.append_assoc, List.append_assoc]
    have hstop : before.size + (written (i :: l)).size =
        (before ++ i.text).size + (written l).size := by
      rw [written_cons, Text.size_append, Text.size_append, Nat.add_assoc]
    have hrest := ih (before ++ i.text) after
    rw [← htext, ← hstop, Text.size_append] at hrest
    cases hm : i.mark? with
    | none =>
      have hitem : (before ++ (written (i :: l) ++ after)).slice? before.size
          (before.size + i.text.size) = some i.text :=
        Text.slice?_eq_some_iff.2 ⟨before, written l ++ after, by simp [written_cons], rfl, rfl⟩
      rw [filter_locate_of_plain hm, kept_cons_of_plain hm, written_cons]
      exact excise?_append hitem hrest
    | some m =>
      cases i with
      | char c => cases hm
      | statement body =>
        have hempty : (before ++ (written (.statement body :: l) ++ after)).slice? before.size
            before.size = some [] :=
          Text.slice?_eq_some_iff.2 ⟨before, _, rfl, rfl, rfl⟩
        rw [filter_locate_of_mark? hm, kept_cons_of_mark? hm, Text.excise?, hempty,
          Option.bind_some]
        simpa [Statement.stop, Statement.text, Item.text] using hrest

/-! ## Sections -/

/-- The statement after the items `a`. -/
def statementAfter (a : List Item) (body : Text) : Statement :=
  ⟨body, (written a).size⟩

section

variable {t body : Text} {a mid after : List Item}

/-- The shaping statements before, of and after an item of a text. -/
theorem shaping_around (ht : items t = a ++ .statement body :: (mid ++ after)) {m : Mark}
    (hm : mark? body = some m) :
    shaping t = (locate 0 a).filter Statement.isShaping ++ statementAfter a body ::
      ((locate (statementAfter a body).stop mid).filter Statement.isShaping ++
        (locate ((statementAfter a body).stop + (written mid).size) after).filter
          Statement.isShaping) := by
  rw [shaping, scan, ht, locate_append, List.filter_append, filter_locate_of_mark? hm,
    locate_append, List.filter_append, Nat.zero_add]
  rfl

/-- A statement that opens a section comes first among the shaping statements from it on. -/
theorem exists_filter_locate_of_opens {j : Item} (h : j.opened? ≠ none) (start : Nat)
    (l : List Item) : ∃ s rest, (locate start (j :: l)).filter Statement.isShaping = s :: rest ∧
      s.start = start ∧ s.isOpening = true := by
  cases j with
  | char c => exact absurd rfl h
  | statement body =>
    obtain ⟨name, hname⟩ := Option.ne_none_iff_exists'.1 h
    have ho := (opened?_statement ⟨body, start⟩).1 hname
    rw [filter_locate_of_mark? (Statement.mark?_eq_opening_iff.2 ho)]
    exact ⟨_, _, rfl, rfl, ho.1⟩

theorem isOpening_head? {l : List Item} (h : ∀ j ∈ l.head?, j.opened? ≠ none) (start : Nat) :
    ∀ x ∈ ((locate start l).filter Statement.isShaping).head?, x.isOpening = true := by
  cases l with
  | nil => simp [locate]
  | cons j rest =>
    obtain ⟨next, others, hnext, -, hopens⟩ := exists_filter_locate_of_opens (h j rfl) start rest
    rw [hnext]
    simpa using hopens

/-- The source between a statement and the next opening, with the statements in between
cut out, is what is kept of the items there. -/
theorem excise?_around (ht : items t = a ++ .statement body :: (mid ++ after))
    (hafter : ∀ j ∈ after.head?, j.opened? ≠ none) :
    t.excise? (statementAfter a body).stop
      ((((locate ((statementAfter a body).stop + (written mid).size) after).filter
        Statement.isShaping).head?.map Statement.start).getD t.size)
      ((locate (statementAfter a body).stop mid).filter Statement.isShaping) =
        some (written (kept mid)) := by
  have hfront : (statementAfter a body).stop = (written a ++ delimited body).size :=
    (Text.size_append _ _).symm
  have htext : t = (written a ++ delimited body) ++ (written mid ++ written after) := by
    rw [← written_items t, ht, written_append, written_cons, written_append, List.append_assoc]
    rfl
  have hstop : (((locate ((statementAfter a body).stop + (written mid).size) after).filter
      Statement.isShaping).head?.map Statement.start).getD t.size =
        (statementAfter a body).stop + (written mid).size := by
    cases after with
    | nil => rw [htext, hfront]; simp [locate, Nat.add_assoc]
    | cons j rest =>
      obtain ⟨next, others, hnext, hstart, -⟩ := exists_filter_locate_of_opens (hafter j rfl)
        ((statementAfter a body).stop + (written mid).size) rest
      rw [hnext]
      exact hstart
  rw [hstop, hfront, htext]
  exact excise?_locate mid _ _

end

/-- A list is parted in one way only in front of its first element with a property. -/
theorem append_inj_of_head? {α : Type} {P : α → Bool} {p q p' q' : List α}
    (h : p ++ q = p' ++ q') (hp : ∀ x ∈ p, P x = false) (hp' : ∀ x ∈ p', P x = false)
    (hq : ∀ x ∈ q.head?, P x = true) (hq' : ∀ x ∈ q'.head?, P x = true) : p = p' ∧ q = q' := by
  have hfront : ∀ {p q : List α}, (∀ x ∈ p, P x = false) → (∀ x ∈ q.head?, P x = true) →
      (p ++ q).takeWhile (!P ·) = p := by
    intro p q hp hq
    rw [List.takeWhile_append_of_pos (by simpa using hp)]
    cases q with
    | nil => simp
    | cons x q => simp [hq x rfl]
  have hsame : p = p' := by rw [← hfront hp hq, h, hfront hp' hq']
  subst hsame
  exact ⟨rfl, List.append_cancel_left h⟩

/-- The last stretch of a name begins at the last statement that opens the name. -/
theorem WellFormed.exists_opensLast {t name : Text} {mid : List Item}
    (hwf : WellFormed (items t)) (h : IsStretch (items t) name mid) :
    ∃ s between after, OpensLast (shaping t) name s between after ∧
      t.excise? s.stop ((after.head?.map Statement.start).getD t.size) between =
        some (written (kept mid)) := by
  obtain ⟨a, i, after, ht, hi, hmid, hafter, hlast⟩ := h
  cases i with
  | char c => cases hi
  | statement body =>
    have ho := (opened?_statement (statementAfter a body)).1 hi
    have hwf' : WellFormed mid := fun j hj => hwf j (by rw [ht]; simp [hj])
    refine ⟨_, _, _, ⟨⟨_, shaping_around ht (Statement.mark?_eq_opening_iff.2 ho)⟩, ho,
      (hwf'.forall_opened?_iff _).1 hmid, isOpening_head? hafter _, ?_⟩, excise?_around ht hafter⟩
    intro x hx hopens hargs
    obtain ⟨j, hj, hname⟩ := (exists_opened?_iff _ name).2 ⟨x, hx, hopens, hargs⟩
    exact hlast j hj hname

/-- After the last statement that opens a name comes the last stretch of the name. -/
theorem OpensLast.exists_isStretch {t name : Text} {s : Statement}
    {between after : List Statement} (h : OpensLast (shaping t) name s between after)
    (hwf : WellFormed (items t)) :
    ∃ mid, IsStretch (items t) name mid ∧
      t.excise? s.stop ((after.head?.map Statement.start).getD t.size) between =
        some (written (kept mid)) := by
  obtain ⟨⟨before, hplace⟩, ho, hbetween, hnext, hlast⟩ := h
  obtain ⟨l₁, l₂, hscan, -, hl₂⟩ := List.filter_eq_append_iff.1 hplace
  obtain ⟨c₁, l₃, rfl, -, -, hl₃⟩ := List.filter_eq_cons_iff.1 hl₂
  rw [← List.append_assoc] at hscan
  obtain ⟨a, b, ht, hstart, -, rfl⟩ := exists_of_locate_eq hscan
  have hs : s = statementAfter a s.body := by
    rw [statementAfter, ← Nat.zero_add (written a).size, ← hstart]
  obtain ⟨rest, hb, hmid, hrest⟩ := exists_toOpening_append b
  generalize toOpening b = mid at hb hmid
  subst hb
  have hwf' : WellFormed mid := fun j hj => hwf j (by rw [ht]; simp [hj])
  rw [locate_append, List.filter_append] at hl₃
  obtain ⟨rfl, rfl⟩ := append_inj_of_head? hl₃ ((hwf'.forall_opened?_iff _).1 hmid) hbetween
    (isOpening_head? hrest _) hnext
  refine ⟨mid, ⟨a, .statement s.body, rest, ht, (opened?_statement s).2 ho, hmid, hrest, ?_⟩, ?_⟩
  · intro j hj hname
    obtain ⟨x, hx, hopens, hargs⟩ := (exists_opened?_iff _ name).1 ⟨j, hj, hname⟩
    exact hlast x hx hopens hargs
  · rw [hs]
    exact excise?_around ht hrest

/-! ## The parent -/

theorem target?_statement (s : Statement) {target : Text} :
    (Item.statement s.body).target? = some target ↔ s.isInherit = true ∧ s.args = [target] := by
  rw [← Statement.mark?_eq_inherit_iff, Item.target?_eq_bind]
  have hmark : Item.mark? (.statement s.body) = mark? s.body := rfl
  rw [hmark]
  cases mark? s.body with
  | none => simp
  | some m => cases m <;> simp [Mark.target?]

/-- Of some well-formed items as many name a parent as there are statements that do. -/
theorem WellFormed.length_filter_isInherit {l : List Item} (h : WellFormed l) (start : Nat) :
    ((locate start l).filter Statement.isInherit).length = (l.filterMap Item.target?).length := by
  induction l generalizing start with
  | nil => rfl
  | cons i l ih =>
    have hrest := ih (fun j hj => h j (List.mem_cons_of_mem i hj))
    cases i with
    | char c => exact hrest _
    | statement body =>
      have hmem : (⟨body, start⟩ : Statement) ∈ locate start (.statement body :: l) :=
        List.mem_cons_self
      have htarget := @target?_statement ⟨body, start⟩
      rw [locate, List.filter_cons]
      cases hi : Statement.isInherit ⟨body, start⟩ with
      | false =>
        have hnone : (Item.statement body).target? = none := by
          rw [Option.eq_none_iff_forall_ne_some]
          intro target ht
          rw [(htarget.1 ht).1] at hi
          cases hi
        rw [List.filterMap_cons_none hnone, ← hrest]
        rfl
      | true =>
        obtain ⟨target, hargs⟩ := h.exists_args hmem (by simp [Statement.isShaping, hi])
        rw [List.filterMap_cons_some (htarget.2 ⟨hi, hargs⟩), List.length_cons, ← hrest]
        rfl

theorem filter_shaping (t : Text) :
    (shaping t).filter Statement.isInherit = (scan t).filter Statement.isInherit := by
  rw [shaping, List.filter_filter]
  refine List.filter_congr fun s _ => ?_
  cases hi : s.isInherit <;> simp [Statement.isShaping, hi]

section

variable {rules : Rules} {doc : Document} {seg : Segmented}

/-- The parent is what the only `inherit` names. -/
theorem parent_of_segment (h : segment rules doc = .ok seg) :
    (∃ s target, (shaping doc.text).filter Statement.isInherit = [s] ∧ s.args = [target] ∧
        seg.parent = some (rules.root.join ⟨target⟩)) ∨
      (shaping doc.text).filter Statement.isInherit = [] ∧ seg.parent = none := by
  have hwf := wellFormed_of_segment h
  have hlen : ((scan doc.text).filter Statement.isInherit).length ≤ 1 := by
    rw [scan, hwf.length_filter_isInherit 0]
    exact length_targets_of_segment h
  have hmem : ∀ target, (items doc.text).findSome? Item.target? = some target →
      ∃ s ∈ (scan doc.text).filter Statement.isInherit, s.args = [target] := by
    intro target ht
    obtain ⟨i, hi, htarget⟩ := List.exists_of_findSome?_eq_some ht
    cases i with
    | char c => cases htarget
    | statement body =>
      obtain ⟨s, hs, rfl⟩ := exists_mem_locate hi 0
      obtain ⟨hinherit, hargs⟩ := (target?_statement s).1 htarget
      exact ⟨s, List.mem_filter.2 ⟨hs, hinherit⟩, hargs⟩
  rw [filter_shaping, segment_parent h]
  cases ht : (items doc.text).findSome? Item.target? with
  | some target =>
    obtain ⟨s, hs, hargs⟩ := hmem target ht
    obtain ⟨only, honly⟩ := List.length_eq_one_iff.1
      (Nat.le_antisymm hlen (List.length_pos_of_mem hs))
    rw [honly, List.mem_singleton] at hs
    exact Or.inl ⟨only, target, honly, hs ▸ hargs, rfl⟩
  | none =>
    refine Or.inr ⟨List.filter_eq_nil_iff.2 fun s hs hinherit => ?_, rfl⟩
    obtain ⟨target, hargs⟩ := hwf.exists_args hs (by simp [Statement.isShaping, hinherit])
    have hnone := List.findSome?_eq_none_iff.1 ht _ (mem_of_mem_locate hs)
    rw [(target?_statement s).2 ⟨hinherit, hargs⟩] at hnone
    cases hnone

/-- The parent and the sections of a document are those that its source and its shaping
statements say. -/
theorem segment_shape (h : segment rules doc = .ok seg) : Shape rules doc.text seg := by
  have hwf := wellFormed_of_segment h
  have hopen : (∀ i ∈ items doc.text, i.opened? = none) ↔
      ∀ s ∈ shaping doc.text, s.isOpening = false := hwf.forall_opened?_iff 0
  have hname : ∀ name, (∃ i ∈ items doc.text, i.opened? = some name) ↔
      ∃ s ∈ shaping doc.text, s.isOpening = true ∧ s.args = [name] := exists_opened?_iff 0
  refine ⟨?_, parent_of_segment h, ?_, ?_, ?_⟩
  · intro s hs
    obtain ⟨hmem, hshape⟩ := List.mem_filter.1 hs
    exact hwf.exists_args hmem hshape
  · intro hwhole
    rw [← hopen] at hwhole
    have hcut := excise?_locate (items doc.text) [] []
    rw [List.append_nil, List.nil_append, written_items, Text.size_nil, Nat.zero_add] at hcut
    rw [get?_anonymous h hwhole, ← hcut]
    rfl
  · intro name part hnamed
    rw [← hopen] at hnamed
    rw [get?_sections h, if_neg hnamed, Option.map_eq_some_iff]
    constructor
    · rintro ⟨mid, hmid, rfl⟩
      exact hwf.exists_opensLast (lookup_stretches_eq_some_iff.1 hmid)
    · rintro ⟨s, between, after, hlast, hcut⟩
      obtain ⟨mid, hmid, hcut'⟩ := hlast.exists_isStretch hwf
      exact ⟨mid, lookup_stretches_eq_some_iff.2 hmid, Option.some.inj (hcut'.symm.trans hcut)⟩
  · intro name
    rw [← hopen, get?_sections h]
    split
    · rename_i hwhole
      simp [hwhole]
    · rename_i hwhole
      rw [or_iff_left hwhole, ← hname, Option.isSome_map, ← Option.ne_none_iff_isSome, Ne,
        lookup_stretches_eq_none_iff]
      simp

end

/-- A section is opened twice, and the parent is named in the middle of the second one. -/
def resumed : Document :=
  ⟨⟨['a']⟩, "1$<fill x>$2$<def .>$3$<def \"x\">$4$<slot y>$$<inherit b>$5".toList⟩

theorem segment_shape_resumed :
    segment ⟨⟨['r']⟩, false⟩ resumed = .ok ⟨some ⟨"r/b".toList⟩,
        Dict.ofList [(['x'], "4$<slot y>$5".toList), (anonymous, ['3'])]⟩ ∧
      Shape ⟨⟨['r']⟩, false⟩ resumed.text ⟨some ⟨"r/b".toList⟩,
        Dict.ofList [(['x'], "4$<slot y>$5".toList), (anonymous, ['3'])]⟩ := by
  have h : segment ⟨⟨['r']⟩, false⟩ resumed = .ok ⟨some ⟨"r/b".toList⟩,
      Dict.ofList [(['x'], "4$<slot y>$5".toList), (anonymous, ['3'])]⟩ := by cbv
  exact ⟨h, segment_shape h⟩

end Folio
