import Mathlib
import Folio.Proofs.Chain.Levels
import Folio.Proofs.Statement.Places

/-!
# Seams

The shaping statements are cut out of a text, and what is left is cut into items once
more. The second cut agrees with the first one exactly when no cut leaves a *seam* : a
loose `$` that meets a loose `<` where shaping statements stood between them, with a
close further on in the line (`items_written_kept_iff`).
-/

namespace Folio

/-- Whether shaping statements stand between a loose `$` and a loose `<` that would open
a statement without them. -/
def Seam (l : List Item) : Prop :=
  ∃ before cut after, l = before ++ .char '$' :: (cut ++ .char '<' :: after) ∧ cut ≠ [] ∧
    (∀ i ∈ cut, i.mark? ≠ none) ∧ close? (written (kept after)) ≠ none

theorem kept_eq_nil {l : List Item} (h : ∀ i ∈ l, i.mark? ≠ none) : kept l = [] := by
  refine List.filter_eq_nil_iff.2 fun i hi => ?_
  simpa using h i hi

/-- A line without a close has none after cutting : it holds no statement to cut. -/
theorem close?_written_kept : ∀ {l : List Item}, Settled l → close? (written l) = none →
    close? (written (kept l)) = none
  | [], _, _ => rfl
  | .statement body :: rest, hl, h => by
    rw [close?_written_statement hl.1 rest] at h
    cases h
  | .char c :: rest, hl, h => by
    rw [kept_char, written_char]
    rw [written_char] at h
    by_cases hc : c = '\n'
    · subst hc
      rw [close?_newline]
    have hrest : ∀ u, c = '>' → written rest ≠ '$' :: u := by
      rintro u rfl hu
      rw [hu, close?_delimiter] at h
      cases h
    rw [close?_cons hc hrest, Option.map_eq_none_iff] at h
    have hkept : ∀ u, c = '>' → written (kept rest) ≠ '$' :: u := by
      intro u hgt hu
      cases rest with
      | nil => simp at hu
      | cons i rest =>
        cases i with
        | char d =>
          rw [kept_char, written_char] at hu
          obtain ⟨rfl, -⟩ := List.cons.inj hu
          exact hrest _ hgt rfl
        | statement body => exact hrest _ hgt (written_statement body rest)
    rw [close?_cons hc hkept, close?_written_kept hl.2 h]
    rfl

theorem settled_kept_iff {l : List Item} (hl : Settled l) : Settled (kept l) ↔ ¬Seam l := by
  constructor
  · rintro hk ⟨before, cut, after, rfl, -, hcut, hclose⟩
    refine hclose ((settled_iff.1 hk).2 (kept before) (kept after) ?_)
    rw [kept_append, kept_char, kept_append, kept_eq_nil hcut, kept_char, List.nil_append]
  · intro hseam
    refine settled_iff.2 ⟨fun body hb => hl.body (List.mem_filter.1 hb).1, ?_⟩
    intro before after he
    obtain ⟨l₁, l₂, rfl, -, h₂⟩ := List.filter_eq_append_iff.1 he
    obtain ⟨c₁, l₃, rfl, -, -, h₃⟩ := List.filter_eq_cons_iff.1 h₂
    obtain ⟨cut, l₄, rfl, hcut, -, rfl⟩ := List.filter_eq_cons_iff.1 h₃
    by_cases hnil : cut = []
    · subst hnil
      have hsuffix : Settled (.char '$' :: .char '<' :: l₄) := by
        rw [← List.append_assoc] at hl
        exact hl.append_right
      exact close?_written_kept hsuffix.2.2 (hsuffix.1 l₄ rfl rfl)
    · refine Classical.byContradiction fun hclose => hseam ?_
      refine ⟨l₁ ++ c₁, cut, l₄, by simp, hnil, ?_, hclose⟩
      intro i hi
      simpa using hcut i hi

/-- What is left of some items of a text is cut where the text was, unless there is a
seam. -/
theorem items_written_kept_iff {l : List Item} (hl : Settled l) :
    items (written (kept l)) = kept l ↔ ¬Seam l := by
  rw [items_written_iff, settled_kept_iff hl]

/-! ## Sections without a seam -/

/-- What stands in the page of a single document in place of an item : a shaping
statement is removed, a slot whose name is bound is replaced, anything else stays. -/
def Item.emitted (scope : Scope) (i : Item) : Text :=
  if i.mark? ≠ none then []
  else
    match i with
    | .char c => [c]
    | .statement body =>
      match slot? body with
      | some name => (scope.get? name).getD (delimited body)
      | none => delimited body

theorem emitted_of_plain {i : Item} (h : i.mark? = none) (scope : Scope) :
    i.emitted scope = i.resolved scope := by
  rw [Item.emitted.eq_def, if_neg (not_not_intro h)]
  cases i with
  | char c => rfl
  | statement body => exact (Item.resolved_statement scope body).symm

theorem flatMap_emitted (scope : Scope) (l : List Item) :
    l.flatMap (Item.emitted scope) = (kept l).flatMap (Item.resolved scope) := by
  induction l with
  | nil => rfl
  | cons i rest ih =>
    cases hm : i.mark? with
    | none =>
      rw [kept_cons_of_plain hm, List.flatMap_cons, List.flatMap_cons, ih, emitted_of_plain hm]
    | some m =>
      have hnil : i.emitted scope = [] := by
        rw [Item.emitted.eq_def, if_pos (by simp [hm])]
      rw [kept_cons_of_mark? hm, List.flatMap_cons, hnil, ih, List.nil_append]

/-- The page of a document without a parent is its anonymous section. -/
theorem Source.build_of_parentless {s : Source} {rules : Rules} {doc : Document}
    {seg : Segmented} (h : segment rules doc = .ok seg) (hp : seg.parent = none)
    (hread : s.read doc.path = .ok doc.text) (globals : Scope) :
    s.build rules doc.path globals =
      .ok ⟨page globals [⟨doc, seg⟩], [doc.path],
        ((⟨doc, seg⟩ : Level).resolved globals).warnings⟩ := by
  have henter : enter s.load rules doc.path .empty =
      .ok (⟨doc, seg⟩, Trail.empty.push doc.path (s.identity doc.path)) := by
    simp [enter, Source.load, Trail.empty, hread, h]
  rw [Source.build, Source.buildFrom_enter, henter]
  simp [hp, Trail.push, Trail.empty]

theorem occupies_append {all mid : List Item} {parent : Option Path} {name : Text}
    (h : Occupies all parent name mid) : ∃ before after, all = before ++ (mid ++ after) := by
  unfold Occupies at h
  split at h
  · exact ⟨[], [], by simp [h]⟩
  · obtain ⟨before, i, after, rfl, -⟩ := h
    exact ⟨before ++ [i], after, by simp⟩

/-- Without a seam, the page of a single document is its text, item by item. -/
theorem page_of_parentless {rules : Rules} {doc : Document} {seg : Segmented}
    (h : segment rules doc = .ok seg) (hp : seg.parent = none) (hseam : ¬Seam (items doc.text))
    (globals : Scope) :
    page globals [⟨doc, seg⟩] = (items doc.text).flatMap (Item.emitted globals) := by
  have hbody := get?_anonymous h (Or.inl hp)
  have hitems := (items_written_kept_iff (settled_items doc.text)).2 hseam
  simp [page, Level.resolved, get?_resolve, hbody, resolveText_fst, hitems, flatMap_emitted]

/-- The statements that are found in a section are those of the document that lie in it,
without the shaping ones, exactly when the section has no seam. Its resolved text and
its warnings are then read off the document. Without a seam in the document, a page of
one document is its text with the shaping statements removed and the bound slots
replaced. -/
theorem section_statements_iff {rules : Rules} {doc : Document} {seg : Segmented}
    (h : segment rules doc = .ok seg) :
    (∀ name text, seg.sections.get? name = some text →
      ∃ mid, Occupies (items doc.text) seg.parent name mid ∧ text = written (kept mid) ∧
        (items text = kept mid ↔ ¬Seam mid) ∧
        (¬Seam mid → ∀ scope file,
          (resolve scope file seg.sections).sections.get? name =
            some ((kept mid).flatMap (Item.resolved scope)) ∧
          (resolve scope file seg.sections).warnings.filter (·.sectionName = name) =
            ((kept mid).filterMap (Item.left? scope)).map
              fun left => ⟨file, name, left.1, left.2⟩)) ∧
    (seg.parent = none → ¬Seam (items doc.text) → ∀ (s : Source) (globals : Scope),
      s.read doc.path = .ok doc.text →
      ∃ warnings, s.build rules doc.path globals =
        .ok ⟨(items doc.text).flatMap (Item.emitted globals), [doc.path], warnings⟩) := by
  constructor
  · intro name text hname
    obtain ⟨mid, hmid, rfl⟩ := (get?_sections_eq_some_iff h).1 hname
    obtain ⟨before, after, hall⟩ := occupies_append hmid
    have hsettled : Settled mid := by
      have hitems := settled_items doc.text
      rw [hall] at hitems
      exact hitems.append_right.append_left
    have hiff := items_written_kept_iff hsettled
    refine ⟨mid, hmid, rfl, hiff, fun hseam scope file => ⟨?_, ?_⟩⟩
    · rw [get?_resolve, hname, Option.map_some, resolveText_fst, hiff.2 hseam]
    · rw [filter_warnings_resolve scope file hname, resolveText_snd, hiff.2 hseam]
  · intro hp hseam s globals hread
    exact ⟨_, by rw [Source.build_of_parentless h hp hread globals,
      page_of_parentless h hp hseam globals]⟩

theorem section_statements_iff_two_sections :
    segment ⟨⟨[]⟩, false⟩ ⟨⟨['a']⟩, "$<fill a>$x$<slot n>$$<def b>$ y".toList⟩ =
        .ok ⟨none, Dict.ofList [("a".toList, "x$<slot n>$".toList), ("b".toList, " y".toList),
          (anonymous, "x$<slot n>$ y".toList)]⟩ ∧
      ¬Seam (items "$<fill a>$x$<slot n>$$<def b>$ y".toList) ∧
      ∃ warnings, (Shelf.empty.insert ⟨['a']⟩
          "$<fill a>$x$<slot n>$$<def b>$ y".toList).source.build ⟨⟨[]⟩, false⟩ ⟨['a']⟩
            (Dict.ofList [(['n'], ['V'])]) = .ok ⟨"xV y".toList, [⟨['a']⟩], warnings⟩ := by
  have h : segment ⟨⟨[]⟩, false⟩ ⟨⟨['a']⟩, "$<fill a>$x$<slot n>$$<def b>$ y".toList⟩ =
      .ok ⟨none, Dict.ofList [("a".toList, "x$<slot n>$".toList), ("b".toList, " y".toList),
        (anonymous, "x$<slot n>$ y".toList)]⟩ := by cbv
  have hseam : ¬Seam (items "$<fill a>$x$<slot n>$$<def b>$ y".toList) :=
    (items_written_kept_iff (settled_items _)).1 (by cbv)
  refine ⟨h, hseam, ?_⟩
  obtain ⟨warnings, hbuild⟩ := (section_statements_iff h).2 rfl hseam
    (Shelf.empty.insert ⟨['a']⟩ "$<fill a>$x$<slot n>$$<def b>$ y".toList).source
    (Dict.ofList [(['n'], ['V'])]) (by cbv)
  exact ⟨warnings, hbuild.trans (by cbv)⟩

/-- Between `$` and `< ` an opening is cut out. What is left of the document is a single
statement, and the slot in it is not replaced. -/
theorem seam_hides_slot :
    ∃ seg text, segment ⟨⟨[]⟩, false⟩ ⟨⟨['a']⟩, "$$<fill a>$< $<slot n>$".toList⟩ = .ok seg ∧
      seg.sections.get? anonymous = some text ∧
      Occupies (items "$$<fill a>$< $<slot n>$".toList) seg.parent anonymous
        (items "$$<fill a>$< $<slot n>$".toList) ∧
      kept (items "$$<fill a>$< $<slot n>$".toList) =
        [.char '$', .char '<', .char ' ', .statement "slot n".toList] ∧
      items text = [.statement " $<slot n".toList] ∧
      (Shelf.empty.insert ⟨['a']⟩ "$$<fill a>$< $<slot n>$".toList).source.build ⟨⟨[]⟩, false⟩
          ⟨['a']⟩ (Dict.ofList [(['n'], ['V'])]) =
        .ok ⟨"$< $<slot n>$".toList, [⟨['a']⟩],
          [⟨⟨['a']⟩, anonymous, "$< $<slot n>$".toList, .unknownCommand "$<slot".toList⟩]⟩ := by
  refine ⟨⟨none, Dict.ofList [("a".toList, "< $<slot n>$".toList),
    (anonymous, "$< $<slot n>$".toList)]⟩, "$< $<slot n>$".toList, by cbv, by cbv, ?_, by cbv,
    by cbv, by cbv⟩
  rw [Occupies, if_pos ⟨rfl, Or.inl rfl⟩]

end Folio
