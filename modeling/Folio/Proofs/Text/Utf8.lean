import Folio.Text.Basic

/-!
# The bytes of a text

A text in bytes is the bytes of its characters one after the other (`Text.utf8`). A byte
below 128 is never a part of a longer character, so where such a byte stands, its
character stands (`Text.mem_of_getElem?_utf8`).
-/

namespace Folio.Text

/-- The bytes of a text. -/
def utf8 (t : Text) : List UInt8 :=
  t.flatMap String.utf8EncodeChar

theorem toList_data_bytes (t : Text) : t.bytes.data.toList = t.utf8 := by
  rw [bytes, String.toUTF8_eq_toByteArray]
  exact List.toList_data_toByteArray

@[simp] theorem utf8_nil : utf8 [] = [] := rfl

theorem utf8_cons (c : Char) (t : Text) : utf8 (c :: t) = String.utf8EncodeChar c ++ utf8 t := rfl

@[simp] theorem utf8_append (s t : Text) : utf8 (s ++ t) = utf8 s ++ utf8 t :=
  List.flatMap_append

@[simp] theorem length_utf8 (t : Text) : t.utf8.length = t.size := by
  induction t with
  | nil => rfl
  | cons c t ih => simp [utf8_cons, ih]

/-! ## Characters of one byte -/

theorem utf8EncodeChar_of_lt {a : Char} (ha : a.toNat < 128) :
    String.utf8EncodeChar a = [a.toUInt8] := by
  refine String.utf8EncodeChar_eq_singleton (Char.utf8Size_eq_one_iff.2 ?_)
  have hval : a.val.toNat < 128 := ha
  rw [UInt32.le_iff_toNat_le]
  exact Nat.le_of_lt_succ hval

theorem utf8_cons_of_lt {a : Char} (ha : a.toNat < 128) (t : Text) :
    utf8 (a :: t) = a.toUInt8 :: utf8 t := by
  rw [utf8_cons, utf8EncodeChar_of_lt ha]
  rfl

theorem toNat_toUInt8 {a : Char} (ha : a.toNat < 128) : a.toUInt8.toNat = a.toNat := by
  have hmod : a.toUInt8.toNat = a.toNat % 256 := UInt32.toNat_toUInt8 a.val
  omega

theorem le_toNat_ofNat {n : Nat} (h : 128 ≤ n % 256) : 128 ≤ (UInt8.ofNat n).toNat := by
  rwa [UInt8.toNat_ofNat']

/-- All bytes of a longer character are at least 128. -/
theorem le_toNat_of_mem_utf8EncodeChar {c : Char} {b : UInt8} (hc : 128 ≤ c.toNat)
    (h : b ∈ String.utf8EncodeChar c) : 128 ≤ b.toNat := by
  have hval : c.val.toNat = c.toNat := rfl
  simp only [String.utf8EncodeChar] at h
  -- One case for each length of a character.
  split at h
  · omega
  split at h
  · simp only [List.mem_cons, List.not_mem_nil, or_false] at h
    rcases h with rfl | rfl <;> exact le_toNat_ofNat (by omega)
  split at h
  · simp only [List.mem_cons, List.not_mem_nil, or_false] at h
    rcases h with rfl | rfl | rfl <;> exact le_toNat_ofNat (by omega)
  · simp only [List.mem_cons, List.not_mem_nil, or_false] at h
    rcases h with rfl | rfl | rfl | rfl <;> exact le_toNat_ofNat (by omega)

/-- A byte below 128 occurs in no other character than its own. -/
theorem eq_of_mem_utf8EncodeChar {a c : Char} (ha : a.toNat < 128)
    (h : a.toUInt8 ∈ String.utf8EncodeChar c) : c = a := by
  have hbyte := toNat_toUInt8 ha
  by_cases hc : c.toNat < 128
  · rw [utf8EncodeChar_of_lt hc, List.mem_singleton] at h
    have := toNat_toUInt8 hc
    rw [← h] at this
    exact Char.toNat_inj.1 (by omega)
  · have := le_toNat_of_mem_utf8EncodeChar (Nat.not_lt.1 hc) h
    omega

/-- Among the bytes of the first character, a byte below 128 is that character. -/
theorem eq_of_getElem?_utf8_cons {a c : Char} (ha : a.toNat < 128) {t : Text} {i : Nat}
    (hi : i < c.utf8Size) (h : (utf8 (c :: t))[i]? = some a.toUInt8) : c = a ∧ i = 0 := by
  rw [utf8_cons, List.getElem?_append_left (by rwa [String.length_utf8EncodeChar])] at h
  obtain rfl := eq_of_mem_utf8EncodeChar ha (List.mem_of_getElem? h)
  rw [← String.length_utf8EncodeChar, utf8EncodeChar_of_lt ha] at hi
  exact ⟨rfl, Nat.lt_one_iff.1 hi⟩

/-- A byte below 128 at the beginning is the first character. -/
theorem exists_cons_of_getElem?_utf8 {a : Char} (ha : a.toNat < 128) :
    ∀ {t : Text}, t.utf8[0]? = some a.toUInt8 → ∃ u, t = a :: u
  | [], h => by simp at h
  | c :: t, h => by
    obtain ⟨rfl, -⟩ := eq_of_getElem?_utf8_cons ha c.utf8Size_pos h
    exact ⟨t, rfl⟩

/-- Where a byte below 128 stands, its character stands. -/
theorem mem_of_getElem?_utf8 {a : Char} (ha : a.toNat < 128) {t : Text} {i : Nat}
    (h : t.utf8[i]? = some a.toUInt8) : a ∈ t := by
  obtain ⟨c, hc, hb⟩ := List.mem_flatMap.1 (List.mem_of_getElem? h)
  rwa [← eq_of_mem_utf8EncodeChar ha hb]

end Folio.Text
