import Folio.Proofs.Statement.Items
import Folio.Template.Segment

/-!
# The sections of a document, as stretches of its items

A section is a stretch of the items of its document without the shaping statements in
it. A named section is the stretch from the last opening of its name to the next
opening (`IsStretch`); the anonymous section of a document without a parent, or
without an opening, is the whole document. `Occupies` puts the two together, and
`get?_sections_eq_some_iff` says that `segment` binds nothing else.
-/

namespace Folio

/-- What an item asks for, when it is a shaping statement. -/
def Item.mark? : Item → Option Mark
  | .char _ => none
  | .statement body => Folio.mark? body

/-- The name of the section that an item opens. -/
def Item.opened? (i : Item) : Option Text :=
  match i.mark? with
  | some (.opening name) => some name
  | _ => none

/-- The path of the parent that an item names. -/
def Item.target? (i : Item) : Option Text :=
  match i.mark? with
  | some (.inherit target) => some target
  | _ => none

/-- The items that are no shaping statements. -/
def kept (l : List Item) : List Item :=
  l.filter fun i => i.mark?.isNone

@[simp] theorem kept_nil : kept [] = [] := rfl

theorem kept_cons_of_mark? {i : Item} {m : Mark} (h : i.mark? = some m) (l : List Item) :
    kept (i :: l) = kept l := by
  simp [kept, h]

theorem kept_cons_of_plain {i : Item} (h : i.mark? = none) (l : List Item) :
    kept (i :: l) = i :: kept l := by
  simp [kept, h]

@[simp] theorem kept_char (c : Char) (l : List Item) : kept (.char c :: l) = .char c :: kept l :=
  kept_cons_of_plain rfl l

@[simp] theorem kept_append (l m : List Item) : kept (l ++ m) = kept l ++ kept m :=
  List.filter_append _ _

/-- The items up to the next opening. -/
def toOpening (l : List Item) : List Item :=
  l.takeWhile fun i => i.opened?.isNone

theorem toOpening_cons (i : Item) (l : List Item) :
    toOpening (i :: l) = if i.opened? = none then i :: toOpening l else [] := by
  cases h : i.opened? <;> simp [toOpening, h]

/-- The openings of a list of items in order, each with the items up to the next one. -/
def stretches : List Item → List (Text × List Item)
  | [] => []
  | i :: rest =>
    match i.opened? with
    | some name => (name, toOpening rest) :: stretches rest
    | none => stretches rest

/-! ## Cuts -/

theorem cutAtMarks_of_mark? {i : Item} {m : Mark} (h : i.mark? = some m) (l : List Item) :
    cutAtMarks (i :: l) = ([], ⟨m, (cutAtMarks l).1⟩ :: (cutAtMarks l).2) := by
  cases i with
  | char c => cases h
  | statement body =>
    have hm : Folio.mark? body = some m := h
    rw [cutAtMarks]
    simp [hm]

theorem cutAtMarks_of_plain {i : Item} (h : i.mark? = none) (l : List Item) :
    cutAtMarks (i :: l) = (i.text ++ (cutAtMarks l).1, (cutAtMarks l).2) := by
  cases i with
  | char c => rfl
  | statement body =>
    have hm : Folio.mark? body = none := h
    rw [cutAtMarks]
    simp [hm, Item.text]

/-- The texts between the cuts are the document without its shaping statements. -/
theorem cutAtMarks_text (l : List Item) :
    (cutAtMarks l).1 ++ (cutAtMarks l).2.flatMap Cut.text = written (kept l) := by
  induction l with
  | nil => rfl
  | cons i rest ih =>
    cases hm : i.mark? with
    | none =>
      rw [cutAtMarks_of_plain hm, kept_cons_of_plain hm, written_cons, ← ih, List.append_assoc]
    | some m => rw [cutAtMarks_of_mark? hm, kept_cons_of_mark? hm, ← ih]; rfl

theorem cutAtMarks_textToOpening (l : List Item) :
    (cutAtMarks l).1 ++ textToOpening (cutAtMarks l).2 = written (kept (toOpening l)) := by
  induction l with
  | nil => rfl
  | cons i rest ih =>
    rw [toOpening_cons]
    cases hm : i.mark? with
    | none =>
      have ho : i.opened? = none := by simp [Item.opened?, hm]
      rw [cutAtMarks_of_plain hm, if_pos ho, kept_cons_of_plain hm, written_cons, ← ih,
        List.append_assoc]
    | some m =>
      rw [cutAtMarks_of_mark? hm]
      cases m with
      | opening name => simp [textToOpening, Item.opened?, hm]
      | inherit target =>
        have ho : i.opened? = none := by simp [Item.opened?, hm]
        rw [if_pos ho, kept_cons_of_mark? hm, ← ih]
        rfl
      | misused command got =>
        have ho : i.opened? = none := by simp [Item.opened?, hm]
        rw [if_pos ho, kept_cons_of_mark? hm, ← ih]
        rfl

theorem namedSections_cutAtMarks (l : List Item) :
    namedSections (cutAtMarks l).2 = (stretches l).map fun s => (s.1, written (kept s.2)) := by
  induction l with
  | nil => rfl
  | cons i rest ih =>
    cases hm : i.mark? with
    | none =>
      have ho : i.opened? = none := by simp [Item.opened?, hm]
      rw [cutAtMarks_of_plain hm, ih]
      simp [stretches, ho]
    | some m =>
      rw [cutAtMarks_of_mark? hm]
      cases m with
      | opening name =>
        have ho : i.opened? = some name := by simp [Item.opened?, hm]
        simp [stretches, ho, namedSections, ih, cutAtMarks_textToOpening]
      | inherit target => simp [stretches, Item.opened?, hm, namedSections, ih]
      | misused command got => simp [stretches, Item.opened?, hm, namedSections, ih]

theorem parentTarget?_cutAtMarks (l : List Item) :
    parentTarget? (cutAtMarks l).2 = l.findSome? Item.target? := by
  induction l with
  | nil => rfl
  | cons i rest ih =>
    cases hm : i.mark? with
    | none => simp [cutAtMarks_of_plain hm, ih, Item.target?, hm]
    | some m =>
      cases m <;>
        simp [cutAtMarks_of_mark? hm, parentTarget?, ih, Item.target?, hm]

/-! ## Stretches -/

/-- Whether the items `mid` follow the last opening of `name` in `all` and reach to the
next opening. -/
def IsStretch (all : List Item) (name : Text) (mid : List Item) : Prop :=
  ∃ before i after, all = before ++ i :: (mid ++ after) ∧ i.opened? = some name ∧
    (∀ j ∈ mid, j.opened? = none) ∧ (∀ j ∈ after.head?, j.opened? ≠ none) ∧
    ∀ j ∈ after, j.opened? ≠ some name

theorem stretches_eq_nil_iff {l : List Item} :
    stretches l = [] ↔ ∀ i ∈ l, i.opened? = none := by
  induction l with
  | nil => simp [stretches]
  | cons i rest ih => cases h : i.opened? <;> simp [stretches, h, ih]

theorem lookup_stretches_cons (i : Item) (l : List Item) (name : Text) :
    (stretches (i :: l)).reverse.lookup name = ((stretches l).reverse.lookup name).or
      (if i.opened? = some name then some (toOpening l) else none) := by
  cases h : i.opened? with
  | none => simp [stretches, h]
  | some n =>
    have hn : (name = n) = (n = name) := propext eq_comm
    simp [stretches, h, List.lookup_append, Dict.lookup_pair_cons, hn]

theorem lookup_stretches_eq_none_iff {l : List Item} {name : Text} :
    (stretches l).reverse.lookup name = none ↔ ∀ i ∈ l, i.opened? ≠ some name := by
  induction l with
  | nil => simp [stretches]
  | cons i rest ih =>
    rw [lookup_stretches_cons, Option.or_eq_none_iff, ih, List.forall_mem_cons, and_comm]
    by_cases h : i.opened? = some name <;> simp [h]

/-- The next opening ends a stretch. -/
theorem toOpening_append {mid after : List Item} (hmid : ∀ j ∈ mid, j.opened? = none)
    (hafter : ∀ j ∈ after.head?, j.opened? ≠ none) : toOpening (mid ++ after) = mid := by
  induction mid with
  | nil =>
    cases after with
    | nil => rfl
    | cons j after => rw [List.nil_append, toOpening_cons, if_neg (hafter j rfl)]
  | cons i mid ih =>
    rw [List.cons_append, toOpening_cons, if_pos (hmid i List.mem_cons_self),
      ih fun j hj => hmid j (List.mem_cons_of_mem i hj)]

theorem exists_toOpening_append (l : List Item) : ∃ after, l = toOpening l ++ after ∧
    (∀ j ∈ toOpening l, j.opened? = none) ∧ ∀ j ∈ after.head?, j.opened? ≠ none := by
  induction l with
  | nil => exact ⟨[], rfl, by simp [toOpening], by simp⟩
  | cons i rest ih =>
    rw [toOpening_cons]
    by_cases ho : i.opened? = none
    · obtain ⟨after, he, hmid, hafter⟩ := ih
      rw [if_pos ho]
      refine ⟨after, by rw [List.cons_append, ← he], ?_, hafter⟩
      intro j hj
      rcases List.mem_cons.1 hj with rfl | hj
      · exact ho
      · exact hmid j hj
    · rw [if_neg ho]
      exact ⟨i :: rest, rfl, by simp, by simpa using ho⟩

/-- The stretch that stays when a later stretch of a name replaces an earlier one. -/
theorem lookup_stretches_eq_some_iff {l : List Item} {name : Text} {mid : List Item} :
    (stretches l).reverse.lookup name = some mid ↔ IsStretch l name mid := by
  induction l with
  | nil => simp [stretches, IsStretch]
  | cons i rest ih =>
    rw [lookup_stretches_cons]
    constructor
    · intro h
      cases hr : (stretches rest).reverse.lookup name with
      | some m =>
        rw [hr] at h
        obtain rfl : m = mid := Option.some.inj h
        obtain ⟨before, o, after, he, hrest⟩ := ih.1 hr
        exact ⟨i :: before, o, after, by rw [he, List.cons_append], hrest⟩
      | none =>
        by_cases ho : i.opened? = some name
        · rw [hr, if_pos ho] at h
          obtain rfl : toOpening rest = mid := Option.some.inj h
          obtain ⟨after, he, hmid, hafter⟩ := exists_toOpening_append rest
          refine ⟨[], i, after, by rw [← he, List.nil_append], ho, hmid, hafter, ?_⟩
          intro j hj
          refine lookup_stretches_eq_none_iff.1 hr j ?_
          rw [he]
          exact List.mem_append_right _ hj
        · rw [hr, if_neg ho] at h
          cases h
    · rintro ⟨before, o, after, he, ho, hmid, hafter, hlast⟩
      cases before with
      | nil =>
        obtain ⟨rfl, rfl⟩ := List.cons.inj he
        have hnone : (stretches (mid ++ after)).reverse.lookup name = none := by
          refine lookup_stretches_eq_none_iff.2 fun j hj => ?_
          rcases List.mem_append.1 hj with hj | hj
          · simp [hmid j hj]
          · exact hlast j hj
        rw [hnone, if_pos ho, toOpening_append hmid hafter]
        rfl
      | cons b before =>
        obtain ⟨rfl, rfl⟩ := List.cons.inj he
        rw [ih.2 ⟨before, o, after, rfl, ho, hmid, hafter, hlast⟩]
        rfl

/-! ## What `segment` answers -/

/-- Whether the items `mid` make up the section `name` of a document with the items
`all` : all of them for the anonymous section of a document without a parent or
without an opening, and the last stretch of `name` otherwise. -/
def Occupies (all : List Item) (parent : Option Path) (name : Text) (mid : List Item) : Prop :=
  if name = anonymous ∧ (parent = none ∨ ∀ i ∈ all, i.opened? = none) then mid = all
  else IsStretch all name mid

variable {rules : Rules} {doc : Document} {seg : Segmented}

/-- The sections and the parent of a document do not depend on its path. -/
theorem segment_of_path {p : Path} {text : Text} (h : segment rules ⟨p, text⟩ = .ok seg)
    (q : Path) : segment rules ⟨q, text⟩ = .ok seg := by
  unfold segment at h ⊢
  simp only at h ⊢
  split at h
  · cases h
  · exact h

/-- The parent is named by the first statement that names one. -/
theorem segment_parent (h : segment rules doc = .ok seg) :
    seg.parent = ((items doc.text).findSome? Item.target?).map fun t => rules.root.join ⟨t⟩ := by
  unfold segment at h
  rw [← parentTarget?_cutAtMarks]
  simp only at h
  split at h
  · cases h
  · split at h <;> cases h <;> rfl

theorem get?_named (l : List Item) (name : Text) :
    (Dict.ofList (namedSections (cutAtMarks l).2)).get? name =
      ((stretches l).reverse.lookup name).map fun mid => written (kept mid) := by
  rw [Dict.get?_ofList, namedSections_cutAtMarks, ← List.map_reverse]
  exact Dict.lookup_map (fun _ mid => written (kept mid)) _ name

theorem get?_sections (h : segment rules doc = .ok seg) (name : Text) :
    seg.sections.get? name =
      if name = anonymous ∧ (seg.parent = none ∨ ∀ i ∈ items doc.text, i.opened? = none) then
        some (written (kept (items doc.text)))
      else ((stretches (items doc.text)).reverse.lookup name).map fun mid =>
        written (kept mid) := by
  have hnil : namedSections (cutAtMarks (items doc.text)).2 = [] ↔
      ∀ i ∈ items doc.text, i.opened? = none := by
    rw [namedSections_cutAtMarks, List.map_eq_nil_iff, stretches_eq_nil_iff]
  unfold segment at h
  simp only [hnil] at h
  split at h
  · cases h
  · split at h
    · rename_i hwhole
      cases h
      simp only
      rw [Dict.get?_insert, cutAtMarks_text, get?_named]
      by_cases hn : name = anonymous
      · rw [if_pos hn, if_pos ⟨hn, hwhole.symm⟩]
      · rw [if_neg hn, if_neg fun hc => hn hc.1]
    · rename_i hwhole
      cases h
      simp only
      rw [get?_named, if_neg fun hc => hwhole hc.2.symm]

/-- The anonymous section of a document without a parent or without an opening is the
whole document. -/
theorem get?_anonymous (h : segment rules doc = .ok seg)
    (hwhole : seg.parent = none ∨ ∀ i ∈ items doc.text, i.opened? = none) :
    seg.sections.get? anonymous = some (written (kept (items doc.text))) := by
  rw [get?_sections h, if_pos ⟨rfl, hwhole⟩]

/-- The sections of a document are the stretches of its items, without the shaping
statements, and no others. -/
theorem get?_sections_eq_some_iff (h : segment rules doc = .ok seg) {name text : Text} :
    seg.sections.get? name = some text ↔
      ∃ mid, Occupies (items doc.text) seg.parent name mid ∧ text = written (kept mid) := by
  rw [get?_sections h]
  unfold Occupies
  split
  · simp [eq_comm]
  · rw [Option.map_eq_some_iff]
    exact exists_congr fun mid => and_congr lookup_stretches_eq_some_iff eq_comm

end Folio
