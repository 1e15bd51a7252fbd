import Folio.Text.Basic

/-!
# Slices of a text

A slice between two byte offsets is what stands between a beginning and a rest of the
text of the right sizes (`Text.slice?_eq_some_iff`). A text has one such beginning for
every offset at most, so that slices side by side make up one slice (`Text.slice?_trans`).
-/

namespace Folio.Text

theorem size_eq_zero_iff {t : Text} : size t = 0 ↔ t = [] := by
  cases t with
  | nil => simp
  | cons c t =>
    have := c.utf8Size_pos
    simp
    omega

/-- Two beginnings of one text that have the same size are the same. -/
theorem append_inj_of_size : ∀ {s t u v : Text}, s ++ u = t ++ v → size s = size t →
    s = t ∧ u = v
  | [], t, u, v, h, hsize => by
    obtain rfl : t = [] := size_eq_zero_iff.1 hsize.symm
    exact ⟨rfl, h⟩
  | c :: s, [], u, v, _, hsize => by
    cases size_eq_zero_iff.1 hsize
  | c :: s, d :: t, u, v, h, hsize => by
    rw [List.cons_append, List.cons_append] at h
    obtain ⟨rfl, hrest⟩ := List.cons.inj h
    have htail : size s = size t := by
      rw [size_cons, size_cons] at hsize
      omega
    obtain ⟨rfl, rfl⟩ := append_inj_of_size hrest htail
    exact ⟨rfl, rfl⟩

theorem exists_size_cons (c : Char) (s : Text) :
    ∃ n, size (c :: s) = n + 1 ∧ c.utf8Size ≤ n + 1 ∧ n + 1 - c.utf8Size = size s := by
  have hpos := c.utf8Size_pos
  refine ⟨size (c :: s) - 1, ?_⟩
  rw [size_cons]
  omega

theorem dropBytes?_size : ∀ s t : Text, dropBytes? (size s) (s ++ t) = some t
  | [], t => by rw [size_nil, dropBytes?, List.nil_append]
  | c :: s, t => by
    obtain ⟨n, hn, hle, hrest⟩ := exists_size_cons c s
    rw [hn, List.cons_append, dropBytes?, if_pos hle, hrest, dropBytes?_size s t]

theorem takeBytes?_size : ∀ s t : Text, takeBytes? (size s) (s ++ t) = some s
  | [], t => by rw [size_nil, takeBytes?]
  | c :: s, t => by
    obtain ⟨n, hn, hle, hrest⟩ := exists_size_cons c s
    rw [hn, List.cons_append, takeBytes?, if_pos hle, hrest, takeBytes?_size s t]
    rfl

theorem exists_of_dropBytes? {n : Nat} {t u : Text} (h : dropBytes? n t = some u) :
    ∃ s, t = s ++ u ∧ size s = n := by
  fun_induction dropBytes? n t with
  | case1 t =>
    obtain rfl := Option.some.inj h
    exact ⟨[], rfl, rfl⟩
  | case2 => cases h
  | case3 n c t hle ih =>
    obtain ⟨s, rfl, hs⟩ := ih h
    exact ⟨c :: s, rfl, by rw [size_cons, hs]; omega⟩
  | case4 => cases h

theorem exists_of_takeBytes? {n : Nat} {t u : Text} (h : takeBytes? n t = some u) :
    ∃ s, t = u ++ s ∧ size u = n := by
  fun_induction takeBytes? n t generalizing u with
  | case1 t =>
    obtain rfl := Option.some.inj h
    exact ⟨t, rfl, rfl⟩
  | case2 => cases h
  | case3 n c t hle ih =>
    obtain ⟨v, hv, rfl⟩ := Option.map_eq_some_iff.1 h
    obtain ⟨s, rfl, hs⟩ := ih hv
    exact ⟨s, rfl, by rw [size_cons, hs]; omega⟩
  | case4 => cases h

/-- A slice is what stands between a beginning and a rest of the text. -/
theorem slice?_eq_some_iff {t u : Text} {start stop : Nat} :
    t.slice? start stop = some u ↔
      ∃ before after, t = before ++ (u ++ after) ∧ size before = start ∧
        start + size u = stop := by
  unfold slice?
  constructor
  · intro h
    split at h
    · rename_i hle
      obtain ⟨rest, hdrop, htake⟩ := Option.bind_eq_some_iff.1 h
      obtain ⟨before, rfl, hb⟩ := exists_of_dropBytes? hdrop
      obtain ⟨after, rfl, hu⟩ := exists_of_takeBytes? htake
      exact ⟨before, after, rfl, hb, by omega⟩
    · cases h
  · rintro ⟨before, after, rfl, rfl, rfl⟩
    rw [if_pos (Nat.le_add_right _ _), dropBytes?_size, Option.bind_some,
      Nat.add_sub_cancel_left, takeBytes?_size]

/-- Two slices side by side are one slice. -/
theorem slice?_trans {t u v : Text} {start mid stop : Nat} (hu : t.slice? start mid = some u)
    (hv : t.slice? mid stop = some v) : t.slice? start stop = some (u ++ v) := by
  obtain ⟨before, after, rfl, hb, hmid⟩ := slice?_eq_some_iff.1 hu
  obtain ⟨before', after', he, hb', hstop⟩ := slice?_eq_some_iff.1 hv
  have hsize : size (before ++ u) = size before' := by rw [size_append]; omega
  rw [← List.append_assoc] at he
  obtain ⟨-, rfl⟩ := append_inj_of_size he hsize
  refine slice?_eq_some_iff.2 ⟨before, after', by simp, hb, ?_⟩
  rw [size_append]
  omega

end Folio.Text
