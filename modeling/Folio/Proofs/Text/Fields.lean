import Mathlib.Data.List.Basic
import Mathlib.Data.List.TakeWhile
import Folio.Text.Blank

/-!
# Trimmed texts and their fields

`Text.trim` answers the only part of a text that has blanks around it and none at its own
ends (`trim_eq_iff`). Fields are what stands between separators : a text is split into
fields exactly when these hold no separator and give the text when they are joined
(`splitOn_eq_iff`).
-/

namespace Folio.Text

/-- Whether a text neither begins nor ends with a blank. -/
def IsTrimmed (t : Text) : Prop :=
  (∀ c ∈ t.head?, isBlank c = false) ∧ ∀ c ∈ t.getLast?, isBlank c = false

/-- Whether `core` is what stands between the blanks at the ends of `t`. -/
def Trims (t core : Text) : Prop :=
  core.IsTrimmed ∧ ∃ before after, t = before ++ (core ++ after) ∧
    (∀ c ∈ before, isBlank c = true) ∧ ∀ c ∈ after, isBlank c = true

/-! ## Trimming -/

theorem IsTrimmed.trims {t : Text} (h : t.IsTrimmed) : Trims t t :=
  ⟨h, [], [], by simp, by simp, by simp⟩

theorem IsTrimmed.append {a b : Text} (ha : a.IsTrimmed) (ha' : a ≠ []) (hb : b.IsTrimmed)
    (hb' : b ≠ []) (mid : Text) : (a ++ (mid ++ b)).IsTrimmed := by
  rw [IsTrimmed, List.head?_append_of_ne_nil a ha', ← List.append_assoc,
    List.getLast?_append_of_ne_nil (a ++ mid) hb']
  exact ⟨ha.1, hb.2⟩

theorem Trims.subset {t core : Text} (h : Trims t core) : core ⊆ t := by
  obtain ⟨-, before, after, rfl, -⟩ := h
  intro c hc
  simp [hc]

/-- Blanks at the end do not matter. -/
theorem Trims.append_blank {t core : Text} (h : Trims t core) {after : Text}
    (hafter : ∀ c ∈ after, isBlank c = true) : Trims (t ++ after) core := by
  obtain ⟨htrimmed, front, back, rfl, hfront, hback⟩ := h
  refine ⟨htrimmed, front, back ++ after, by simp, hfront, fun c hc => ?_⟩
  exact (List.mem_append.1 hc).elim (hback c) (hafter c)

theorem dropWhile_blank {before t : Text} (hbefore : ∀ c ∈ before, isBlank c = true)
    (ht : ∀ c ∈ t.head?, isBlank c = false) : (before ++ t).dropWhile isBlank = t := by
  rw [List.dropWhile_append_of_pos hbefore]
  cases t with
  | nil => rfl
  | cons c t => rw [List.dropWhile_cons_of_neg (by simp [ht c rfl])]

theorem trim_of_trims {t core : Text} (h : Trims t core) : t.trim = core := by
  obtain ⟨⟨hhead, hlast⟩, before, after, rfl, hbefore, hafter⟩ := h
  have hend : (core ++ after).trimEnd = core := by
    rw [trimEnd, List.reverse_append, dropWhile_blank, List.reverse_reverse]
    · simpa using hafter
    · simpa using hlast
  rw [trim, trimStart]
  cases core with
  | nil =>
    have hblank : (before ++ ([] ++ after)).dropWhile isBlank = [] := by
      rw [List.dropWhile_eq_nil_iff]
      intro c hc
      exact (List.mem_append.1 hc).elim (hbefore c) (hafter c)
    rw [hblank]
    rfl
  | cons c core =>
    rw [dropWhile_blank hbefore (by simpa using hhead)]
    exact hend

theorem trims_trim (t : Text) : Trims t t.trim := by
  have hfront : t = t.takeWhile isBlank ++ t.trimStart := List.takeWhile_append_dropWhile.symm
  have hback : t.trimStart = t.trim ++ (t.trimStart.reverse.takeWhile isBlank).reverse := by
    rw [trim, trimEnd, ← List.reverse_append, List.takeWhile_append_dropWhile,
      List.reverse_reverse]
  have hends : ∀ (u : Text), ∀ c ∈ (u.dropWhile isBlank).head?, isBlank c = false := by
    intro u c hc
    have hnot := List.head?_dropWhile_not isBlank u
    rw [hc] at hnot
    exact hnot
  refine ⟨⟨fun c hc => hends t c ?_, fun c hc => hends t.trimStart.reverse c ?_⟩,
    t.takeWhile isBlank, (t.trimStart.reverse.takeWhile isBlank).reverse, ?_, ?_, ?_⟩
  · show c ∈ t.trimStart.head?
    rw [hback, List.head?_append, hc]
    rfl
  · rwa [trim, trimEnd, List.getLast?_reverse] at hc
  · rw [← hback, ← hfront]
  · exact fun c hc => List.mem_takeWhile_imp hc
  · exact fun c hc => List.mem_takeWhile_imp (List.mem_reverse.1 hc)

theorem trim_eq_iff {t core : Text} : t.trim = core ↔ Trims t core :=
  ⟨fun h => h ▸ trims_trim t, trim_of_trims⟩

theorem trim_dropReturn (t : Text) : t.dropReturn.trim = t.trim := by
  unfold dropReturn
  split
  · rename_i h
    have hsplit : t.dropLast ++ ['\r'] = t := by
      obtain ⟨front, rfl⟩ := List.getLast?_eq_some_iff.1 h
      rw [List.dropLast_concat]
    have hreturn : ∀ c ∈ ['\r'], isBlank c = true := by simp [isBlank]
    have htrims := (trims_trim t.dropLast).append_blank hreturn
    rw [hsplit] at htrims
    exact (trim_of_trims htrims).symm
  · rfl

/-! ## Fields -/

variable {t part : Text} {sep : Char}

theorem not_of_mem_splitOnP {p : Char → Bool} (h : part ∈ t.splitOnP p) : ∀ c ∈ part, ¬p c := by
  induction t generalizing part with
  | nil =>
    obtain rfl := List.mem_singleton.1 h
    exact fun c hc => absurd hc List.not_mem_nil
  | cons d t ih =>
    rw [List.splitOnP_cons_eq_if_modifyHead] at h
    split at h
    · rcases List.mem_cons.1 h with rfl | h
      · exact fun c hc => absurd hc List.not_mem_nil
      · exact ih h
    · rename_i hd
      obtain ⟨first, rest, hsplit⟩ := List.exists_cons_of_ne_nil (List.splitOnP_ne_nil p t)
      rw [hsplit] at h ih
      rcases List.mem_cons.1 h with rfl | h
      · exact List.forall_mem_cons.2 ⟨hd, ih List.mem_cons_self⟩
      · exact ih (List.mem_cons_of_mem first h)

theorem notMem_of_mem_splitOn (h : part ∈ t.splitOn sep) : sep ∉ part := by
  rw [List.splitOn_eq_splitOnP] at h
  exact fun hmem => not_of_mem_splitOnP h sep hmem (beq_self_eq_true sep)

theorem splitOn_eq_iff {parts : List Text} (hne : parts ≠ []) :
    t.splitOn sep = parts ↔ (∀ part ∈ parts, sep ∉ part) ∧ [sep].intercalate parts = t := by
  constructor
  · rintro rfl
    exact ⟨fun part => notMem_of_mem_splitOn, List.intercalate_splitOn sep⟩
  · rintro ⟨hparts, rfl⟩
    exact List.splitOn_intercalate sep hparts hne

theorem splitOn_of_notMem (h : sep ∉ t) : t.splitOn sep = [t] :=
  (splitOn_eq_iff (by simp)).2 ⟨by simpa using h, by simp⟩

/-- There is one field more than there are separators. -/
theorem length_splitOn (t : Text) (sep : Char) : (t.splitOn sep).length = t.count sep + 1 := by
  induction t with
  | nil => simp
  | cons c t ih =>
    rw [List.splitOn_cons_eq_if_modifyHead, List.count_cons]
    split
    · rw [List.length_cons, ih]
    · rw [List.length_modifyHead, ih]

end Folio.Text
