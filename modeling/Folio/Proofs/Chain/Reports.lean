import Mathlib
import Folio.Proofs.Template.Replace
import Folio.Proofs.Template.Seam
import Folio.Proofs.Template.Shape

/-!
# What the warnings of a page report

The page of a document without a parent is its anonymous section, which is the whole
document. The warnings are taken from every section, so a statement that is left in place
is reported once for the page, and once more when it also lies in a named section, whose
text goes nowhere. `unresolved` lists the statements that are left in the page, and
`Warning.Reports` says which warning is about which of them.

`build_reports` : the warnings that stand for the anonymous section are the statements left
in the page, in order, one warning for each. All warnings together are so exactly when no
named section holds a statement that is left (`LeftInNamed`).
-/

namespace Folio

/-- The statements of a text, without the shaping ones, that stand for no bound text. -/
def unresolved (scope : Scope) (t : Text) : List Statement :=
  (scan t).filter fun s => !s.isShaping && (s.bound? scope).isNone

/-- Whether a warning about a file is a report of the statement `s`. -/
structure Warning.Reports (file : Path) (w : Warning) (s : Statement) : Prop where
  file : w.file = file
  statement : w.statement = s.text
  kind : w.kind = s.complaint

/-- Whether a named section of a document without a parent holds a statement that is left
in place. Only the last stretch of a name counts, and the anonymous section is none of
these, also where the document opens it by its name. -/
def LeftInNamed (scope : Scope) (all : List Item) : Prop :=
  ∃ name mid, name ≠ anonymous ∧ IsStretch all name mid ∧
    (kept mid).filterMap (Item.left? scope) ≠ []

/-! ## One section -/

theorem Statement.reports_warning (file : Path) (sectionName : Text) (s : Statement) :
    (s.warning file sectionName).Reports file s :=
  ⟨rfl, rfl, rfl⟩

/-- Without the shaping statements, the items that are left in place are the unresolved
statements. -/
theorem filterMap_left?_kept (scope : Scope) : ∀ (l : List Item) (start : Nat),
    (kept l).filterMap (Item.left? scope) =
      ((locate start l).filter fun s => !s.isShaping && (s.bound? scope).isNone).map
        fun s => (s.text, s.complaint)
  | [], _ => rfl
  | .char c :: rest, start => filterMap_left?_kept scope rest (start + c.utf8Size)
  | .statement body :: rest, start => by
    have hrest := filterMap_left?_kept scope rest (start + (delimited body).size)
    have hshape := Statement.isSome_mark? ⟨body, start⟩
    have hmark : (Item.statement body).mark? = mark? body := rfl
    rw [locate, List.filter_cons, ← hshape]
    cases hm : mark? body with
    | some m =>
      rw [kept_cons_of_mark? (hmark.trans hm), hrest]
      rfl
    | none =>
      rw [kept_cons_of_plain (hmark.trans hm), List.filterMap_cons,
        Item.left?_body scope ⟨body, start⟩, hrest]
      cases (Statement.bound? scope ⟨body, start⟩).isNone <;> rfl

/-- The warnings about a text report its statements that are not bound, in order. -/
theorem forall₂_resolveText (scope : Scope) (file : Path) (sectionName text : Text) :
    List.Forall₂ (Warning.Reports file) (resolveText scope file sectionName text).2
      ((scan text).filter fun s => (s.bound? scope).isNone) := by
  rw [resolveText_snd_scan, List.forall₂_map_left_iff, List.forall₂_same]
  exact fun s _ => s.reports_warning file sectionName

/-- A text that is still cut as the document was gives the warnings of the document. -/
theorem resolveText_snd_kept {l : List Item} (h : items (written (kept l)) = kept l)
    (scope : Scope) (file : Path) (sectionName : Text) :
    (resolveText scope file sectionName (written (kept l))).2 =
      ((kept l).filterMap (Item.left? scope)).map
        fun left => ⟨file, sectionName, left.1, left.2⟩ := by
  rw [resolveText_snd, h]

theorem forall₂_resolveText_kept {t : Text} (hseam : ¬Seam (items t)) (scope : Scope)
    (file : Path) (sectionName : Text) :
    List.Forall₂ (Warning.Reports file)
      (resolveText scope file sectionName (written (kept (items t)))).2 (unresolved scope t) := by
  have hcut := (items_written_kept_iff (settled_items t)).2 hseam
  rw [resolveText_snd_kept hcut, filterMap_left?_kept scope (items t) 0, List.map_map,
    List.forall₂_map_left_iff]
  exact List.forall₂_same.2 fun s _ => s.reports_warning file sectionName

/-! ## All sections -/

/-- A list is matched as a part of it is exactly when the part is all of it. -/
theorem forall₂_iff_of_filter {α β : Type} {R : α → β → Prop} {p : α → Bool} {l : List α}
    {m : List β} (h : List.Forall₂ R (l.filter p) m) :
    List.Forall₂ R l m ↔ ∀ a ∈ l, p a = true := by
  constructor
  · intro hall
    rw [← List.length_filter_eq_length_iff, h.length_eq, hall.length_eq]
  · intro hp
    rwa [List.filter_eq_self.2 hp] at h

/-- A section of a text without a seam is cut as the text is. -/
theorem Occupies.items_written_kept {t name : Text} {parent : Option Path} {mid : List Item}
    (h : Occupies (items t) parent name mid) (hseam : ¬Seam (items t)) :
    items (written (kept mid)) = kept mid := by
  obtain ⟨before, after, ht⟩ := occupies_append h
  have hsettled := (settled_kept_iff (settled_items t)).2 hseam
  rw [ht, kept_append, kept_append] at hsettled
  exact items_written_iff.2 hsettled.append_right.append_left

theorem forall_isInherit_iff {rules : Rules} {doc : Document} {seg : Segmented}
    (h : segment rules doc = .ok seg) :
    (∀ s ∈ scan doc.text, s.isInherit = false) ↔ seg.parent = none := by
  have hfilter : (∀ s ∈ scan doc.text, s.isInherit = false) ↔
      (shaping doc.text).filter Statement.isInherit = [] := by
    rw [filter_shaping, List.filter_eq_nil_iff]
    simp only [Bool.not_eq_true]
  rw [hfilter]
  rcases parent_of_segment h with ⟨s, target, hs, -, hp⟩ | ⟨hs, hp⟩ <;> simp [hs, hp]

section

variable {rules : Rules} {doc : Document} {seg : Segmented}

/-- Without a seam, the warnings about a section are about the items of the document that
are left in it. -/
theorem mem_warnings_iff (h : segment rules doc = .ok seg) (hseam : ¬Seam (items doc.text))
    {scope : Scope} {file : Path} {w : Warning} :
    w ∈ (resolve scope file seg.sections).warnings ↔
      ∃ mid, Occupies (items doc.text) seg.parent w.sectionName mid ∧ w.file = file ∧
        (w.statement, w.kind) ∈ (kept mid).filterMap (Item.left? scope) := by
  rw [mem_warnings_resolve]
  constructor
  · rintro ⟨name, text, hsection, hw⟩
    obtain ⟨mid, hmid, rfl⟩ := (get?_sections_eq_some_iff h).1 hsection
    rw [resolveText_snd_kept (hmid.items_written_kept hseam)] at hw
    obtain ⟨left, hleft, rfl⟩ := List.mem_map.1 hw
    exact ⟨mid, hmid, rfl, hleft⟩
  · rintro ⟨mid, hmid, hfile, hleft⟩
    refine ⟨w.sectionName, _, (get?_sections_eq_some_iff h).2 ⟨mid, hmid, rfl⟩, ?_⟩
    rw [resolveText_snd_kept (hmid.items_written_kept hseam), ← hfile]
    exact List.mem_map_of_mem hleft

/-- No warning is about a named section exactly when none of these holds a statement that
is left in place. -/
theorem forall_anonymous_iff (h : segment rules doc = .ok seg) (hseam : ¬Seam (items doc.text))
    (scope : Scope) (file : Path) :
    (∀ w ∈ (resolve scope file seg.sections).warnings, w.sectionName = anonymous) ↔
      ¬LeftInNamed scope (items doc.text) := by
  have hnamed : ∀ {name mid}, name ≠ anonymous → (Occupies (items doc.text) seg.parent name mid ↔
      IsStretch (items doc.text) name mid) := by
    intro name mid hname
    rw [Occupies, if_neg fun hc => hname hc.1]
  constructor
  · rintro hall ⟨name, mid, hname, hmid, hleft⟩
    obtain ⟨left, hmem⟩ := List.exists_mem_of_ne_nil _ hleft
    exact hname (hall ⟨file, name, left.1, left.2⟩
      ((mem_warnings_iff h hseam).2 ⟨mid, (hnamed hname).2 hmid, rfl, hmem⟩))
  · intro hnone w hw
    obtain ⟨mid, hmid, -, hmem⟩ := (mem_warnings_iff h hseam).1 hw
    refine Classical.byContradiction fun hname => hnone ?_
    exact ⟨w.sectionName, mid, hname, (hnamed hname).1 hmid, List.ne_nil_of_mem hmem⟩

/-- Without a seam, every warning about a document is about a statement that it leaves. -/
theorem exists_unresolved_of_mem (h : segment rules doc = .ok seg)
    (hseam : ¬Seam (items doc.text)) {scope : Scope} {file : Path} {w : Warning}
    (hw : w ∈ (resolve scope file seg.sections).warnings) :
    ∃ u ∈ unresolved scope doc.text, w.Reports file u := by
  obtain ⟨mid, hmid, hfile, hleft⟩ := (mem_warnings_iff h hseam).1 hw
  obtain ⟨before, after, hall⟩ := occupies_append hmid
  have hwhole : (w.statement, w.kind) ∈
      (kept (items doc.text)).filterMap (Item.left? scope) := by
    rw [hall, kept_append, kept_append, List.filterMap_append, List.filterMap_append]
    exact List.mem_append_right _ (List.mem_append_left _ hleft)
  rw [filterMap_left?_kept scope (items doc.text) 0] at hwhole
  obtain ⟨u, hu, he⟩ := List.mem_map.1 hwhole
  obtain ⟨hstatement, hkind⟩ := Prod.mk.inj he
  exact ⟨u, hu, hfile, hstatement.symm, hkind.symm⟩

end

/-! ## The page -/

theorem exists_segment_of_build {s : Source} {rules : Rules} {entry : Path} {t : Text}
    {globals : Scope} {r : Rendered} (hread : s.read entry = .ok t)
    (hroot : ∀ u ∈ scan t, u.isInherit = false) (hbuild : s.build rules entry globals = .ok r) :
    ∃ seg, segment rules ⟨entry, t⟩ = .ok seg ∧ seg.parent = none := by
  obtain ⟨hclimb, -⟩ := Source.climb_of_build_eq_ok hbuild
  cases hlevels : (s.walk rules entry).levels with
  | nil => exact absurd hlevels hclimb.ne_nil
  | cons level above =>
    rw [hlevels] at hclimb
    obtain ⟨hpath, hload, hseg, -⟩ := hclimb
    obtain ⟨⟨p, text⟩, seg⟩ := level
    obtain rfl : p = entry := hpath
    obtain rfl : t = text := Except.ok.inj (hread.symm.trans hload)
    exact ⟨seg, hseg, (forall_isInherit_iff hseg).1 hroot⟩

/-- The page of a document without a parent, and its warnings. Those about the anonymous
section report the statements that the resolved text is found to leave, one each and in
order. When no cut joins two delimiters, these are the statements of the document that are
left in the page, and no warning is about anything else; there is exactly one warning for
each of them when no named section holds one. -/
theorem build_reports {s : Source} {rules : Rules} {entry : Path} {t : Text} {globals : Scope}
    {r : Rendered} (hread : s.read entry = .ok t) (hroot : ∀ u ∈ scan t, u.isInherit = false)
    (hbuild : s.build rules entry globals = .ok r) :
    r.chain = [entry] ∧
      List.Forall₂ (Warning.Reports entry) (r.warnings.filter (·.sectionName = anonymous))
        ((scan (written (kept (items t)))).filter fun u => (u.bound? globals).isNone) ∧
      (¬Seam (items t) →
        r.text = (items t).flatMap (Item.emitted globals) ∧
          List.Forall₂ (Warning.Reports entry) (r.warnings.filter (·.sectionName = anonymous))
            (unresolved globals t) ∧
          (∀ w ∈ r.warnings, ∃ u ∈ unresolved globals t, w.Reports entry u) ∧
          (List.Forall₂ (Warning.Reports entry) r.warnings (unresolved globals t) ↔
            ¬LeftInNamed globals (items t))) := by
  obtain ⟨seg, hseg, hp⟩ := exists_segment_of_build hread hroot hbuild
  have hpage := Source.build_of_parentless hseg hp hread globals
  rw [hbuild] at hpage
  obtain rfl := Except.ok.inj hpage
  have hbody := get?_anonymous hseg (Or.inl hp)
  have hwarnings : (resolve globals entry seg.sections).warnings.filter
      (·.sectionName = anonymous) =
        (resolveText globals entry anonymous (written (kept (items t)))).2 :=
    filter_warnings_resolve globals entry hbody
  refine ⟨rfl, ?_, fun hseam => ?_⟩
  · show List.Forall₂ _ (List.filter _ (resolve globals entry seg.sections).warnings) _
    rw [hwarnings]
    exact forall₂_resolveText globals entry anonymous _
  have hanonymous : List.Forall₂ (Warning.Reports entry)
      ((resolve globals entry seg.sections).warnings.filter (·.sectionName = anonymous))
      (unresolved globals t) := by
    rw [hwarnings]
    exact forall₂_resolveText_kept hseam globals entry anonymous
  refine ⟨page_of_parentless hseg hp hseam globals, hanonymous,
    fun w => exists_unresolved_of_mem hseg hseam, ?_⟩
  rw [← forall_anonymous_iff hseg hseam globals entry]
  exact (forall₂_iff_of_filter hanonymous).trans (by simp only [decide_eq_true_eq])

/-- A slot that is not bound stands in front of the only section. -/
def led : Text :=
  "$<slot x>$$<fill s>$y".toList

theorem build_reports_led :
    (Shelf.empty.insert ⟨['a']⟩ led).source.build ⟨⟨[]⟩, false⟩ ⟨['a']⟩ (Dict.ofList []) =
        .ok ⟨"$<slot x>$y".toList, [⟨['a']⟩],
          [⟨⟨['a']⟩, anonymous, "$<slot x>$".toList, .missingVariable ['x']⟩]⟩ ∧
      ¬Seam (items led) ∧ unresolved (Dict.ofList []) led = [⟨"slot x".toList, 0⟩] ∧
      ¬LeftInNamed (Dict.ofList []) (items led) := by
  have hread : (Shelf.empty.insert ⟨['a']⟩ led).source.read ⟨['a']⟩ = .ok led := by cbv
  have hroot : ∀ u ∈ scan led, u.isInherit = false := by
    have hscan : scan led = [⟨"slot x".toList, 0⟩, ⟨"fill s".toList, 10⟩] := by cbv
    rw [hscan]
    decide +kernel
  have hbuild : (Shelf.empty.insert ⟨['a']⟩ led).source.build ⟨⟨[]⟩, false⟩ ⟨['a']⟩
      (Dict.ofList []) = .ok ⟨"$<slot x>$y".toList, [⟨['a']⟩],
        [⟨⟨['a']⟩, anonymous, "$<slot x>$".toList, .missingVariable ['x']⟩]⟩ := by cbv
  have hseam : ¬Seam (items led) := (items_written_kept_iff (settled_items _)).1 (by cbv)
  have hleft : unresolved (Dict.ofList []) led = [⟨"slot x".toList, 0⟩] := by cbv
  obtain ⟨-, -, hpage⟩ := build_reports hread hroot hbuild
  obtain ⟨-, -, -, hiff⟩ := hpage hseam
  refine ⟨hbuild, hseam, hleft, hiff.1 ?_⟩
  rw [hleft]
  exact .cons ⟨rfl, by cbv, by cbv⟩ .nil

/-- A slot that is not bound stands in the only section. -/
def sectioned : Text :=
  "$<fill s>$$<slot x>$".toList

/-- The statement stands in the page once, and it is reported for the page and for the
section. -/
theorem section_reported_twice :
    (Shelf.empty.insert ⟨['a']⟩ sectioned).source.build ⟨⟨[]⟩, false⟩ ⟨['a']⟩ (Dict.ofList []) =
        .ok ⟨"$<slot x>$".toList, [⟨['a']⟩],
          [⟨⟨['a']⟩, anonymous, "$<slot x>$".toList, .missingVariable ['x']⟩,
            ⟨⟨['a']⟩, ['s'], "$<slot x>$".toList, .missingVariable ['x']⟩]⟩ ∧
      ¬Seam (items sectioned) ∧ (∀ u ∈ scan sectioned, u.isInherit = false) ∧
      unresolved (Dict.ofList []) sectioned = [⟨"slot x".toList, 10⟩] ∧
      ¬List.Forall₂ (Warning.Reports ⟨['a']⟩)
        [⟨⟨['a']⟩, anonymous, "$<slot x>$".toList, .missingVariable ['x']⟩,
          ⟨⟨['a']⟩, ['s'], "$<slot x>$".toList, .missingVariable ['x']⟩]
        (unresolved (Dict.ofList []) sectioned) := by
  have hleft : unresolved (Dict.ofList []) sectioned = [⟨"slot x".toList, 10⟩] := by cbv
  have hscan : scan sectioned = [⟨"fill s".toList, 0⟩, ⟨"slot x".toList, 10⟩] := by cbv
  refine ⟨by cbv, (items_written_kept_iff (settled_items _)).1 (by cbv), ?_, hleft, ?_⟩
  · rw [hscan]
    decide +kernel
  · intro hall
    rw [hleft] at hall
    have hlength := hall.length_eq
    simp at hlength

end Folio
