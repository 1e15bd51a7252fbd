import Folio.Proofs.Text.Slice
import Folio.Proofs.Text.Utf8

/-!
# Where a text may be sliced

`Text.slice?` counts characters. What it answers can be told from the bytes alone :
`IsBoundary` is the place of a byte that begins a character, or the end, and `Sliceable` is
what a pair of offsets has to meet.

`Text.isSome_slice?_iff` : a slice is answered for these pairs and no others. The bytes of
the answer are the bytes between the two offsets (`Text.bytes_of_slice?`).

A character of one byte may be looked for byte by byte. Where its byte stands, the character
stands, so both of its ends are boundaries (`Text.exists_of_getElem?_utf8`).
-/

namespace Folio

/-- Whether an offset into some bytes is their end or the place of a byte that begins a
character. -/
def IsBoundary (b : List UInt8) (i : Nat) : Prop :=
  i = b.length ∨ ∃ x, b[i]? = some x ∧ x.IsUTF8FirstByte

/-- Whether a text with the bytes `b` can be sliced from byte `start` up to byte `stop`. -/
structure Sliceable (b : List UInt8) (start stop : Nat) : Prop where
  le : start ≤ stop
  inside : stop ≤ b.length
  start_boundary : IsBoundary b start
  stop_boundary : IsBoundary b stop

theorem isBoundary_append_add {p q : List UInt8} {i : Nat} :
    IsBoundary (p ++ q) (p.length + i) ↔ IsBoundary q i := by
  rw [IsBoundary, IsBoundary, List.length_append, Nat.add_left_cancel_iff,
    List.getElem?_append_right (Nat.le_add_right _ _), Nat.add_sub_cancel_left]

namespace Text

/-! ## Boundaries -/

/-- Among the bytes of the first character only the first one is at a boundary. -/
theorem isBoundary_utf8_cons_iff {c : Char} {t : Text} {i : Nat} (hi : i < c.utf8Size) :
    IsBoundary (utf8 (c :: t)) i ↔ i = 0 := by
  have hlt : i < (String.utf8EncodeChar c).length := by rwa [String.length_utf8EncodeChar]
  have hbyte : (utf8 (c :: t))[i]? = some (String.utf8EncodeChar c)[i] := by
    rw [utf8_cons, List.getElem?_append_left hlt, List.getElem?_eq_getElem hlt]
  have hend : i ≠ (utf8 (c :: t)).length := by
    rw [length_utf8, size_cons]
    omega
  rw [IsBoundary, hbyte, or_iff_right hend]
  simp

theorem isBoundary_utf8_zero (t : Text) : IsBoundary t.utf8 0 := by
  cases t with
  | nil => exact Or.inl rfl
  | cons c t => exact (isBoundary_utf8_cons_iff c.utf8Size_pos).2 rfl

/-- A boundary is where a text can be broken in two. -/
theorem isBoundary_utf8_iff {t : Text} {i : Nat} :
    IsBoundary t.utf8 i ↔ ∃ u v, t = u ++ v ∧ u.size = i := by
  constructor
  · intro h
    induction t generalizing i with
    | nil =>
      have hzero : i = 0 := by simpa [IsBoundary] using h
      exact ⟨[], [], rfl, hzero.symm⟩
    | cons c t ih =>
      by_cases hi : i < c.utf8Size
      · exact ⟨[], c :: t, rfl, ((isBoundary_utf8_cons_iff hi).1 h).symm⟩
      · obtain ⟨m, rfl⟩ := Nat.exists_eq_add_of_le (Nat.not_lt.1 hi)
        rw [utf8_cons, ← String.length_utf8EncodeChar, isBoundary_append_add] at h
        obtain ⟨u, v, rfl, rfl⟩ := ih h
        exact ⟨c :: u, v, rfl, rfl⟩
  · rintro ⟨u, v, rfl, rfl⟩
    rw [utf8_append, ← length_utf8, ← Nat.add_zero u.utf8.length, isBoundary_append_add]
    exact isBoundary_utf8_zero v

/-! ## Slices -/

/-- A slice is answered exactly between two boundaries, the first of which does not stand
behind the second. -/
theorem isSome_slice?_iff {t : Text} {start stop : Nat} :
    (t.slice? start stop).isSome ↔ Sliceable t.utf8 start stop := by
  constructor
  · intro h
    obtain ⟨u, hu⟩ := Option.isSome_iff_exists.1 h
    obtain ⟨before, after, rfl, rfl, rfl⟩ := slice?_eq_some_iff.1 hu
    have hstop : ∃ x y, before ++ (u ++ after) = x ++ y ∧ x.size = before.size + u.size :=
      ⟨before ++ u, after, by simp, size_append before u⟩
    refine ⟨Nat.le_add_right _ _, ?_, isBoundary_utf8_iff.2 ⟨before, _, rfl, rfl⟩,
      isBoundary_utf8_iff.2 hstop⟩
    rw [length_utf8, size_append, size_append]
    omega
  · rintro ⟨hle, -, hstart, hstop⟩
    obtain ⟨before, rest, rfl, rfl⟩ := isBoundary_utf8_iff.1 hstart
    obtain ⟨front, after, he, rfl⟩ := isBoundary_utf8_iff.1 hstop
    refine Option.isSome_iff_exists.2 ?_
    rcases List.append_eq_append_iff.1 he with ⟨u, rfl, rfl⟩ | ⟨u, rfl, rfl⟩
    · exact ⟨u, slice?_eq_some_iff.2 ⟨before, after, rfl, rfl, (size_append before u).symm⟩⟩
    · -- The two offsets are the same.
      have hzero : size u = 0 := by
        rw [size_append] at hle
        omega
      obtain rfl := size_eq_zero_iff.1 hzero
      exact ⟨[], slice?_eq_some_iff.2 ⟨front, rest, by simp, by simp, by simp⟩⟩

/-- A slice has the bytes between its offsets. -/
theorem utf8_of_slice? {t u : Text} {start stop : Nat} (h : t.slice? start stop = some u) :
    u.utf8 = (t.utf8.take stop).drop start := by
  obtain ⟨before, after, rfl, rfl, rfl⟩ := slice?_eq_some_iff.1 h
  rw [utf8_append, utf8_append, ← length_utf8 before, ← length_utf8 u, List.take_length_add_append,
    List.take_left, List.drop_left]

theorem getElem?_utf8_of_slice? {t u : Text} {start stop i : Nat}
    (h : t.slice? start stop = some u) (hi : start + i < stop) :
    u.utf8[i]? = t.utf8[start + i]? := by
  rw [utf8_of_slice? h, List.getElem?_drop, List.getElem?_take_of_lt hi]

theorem size_of_slice? {t u : Text} {start stop : Nat} (h : t.slice? start stop = some u) :
    u.size = stop - start := by
  obtain ⟨before, after, rfl, rfl, rfl⟩ := slice?_eq_some_iff.1 h
  exact (Nat.add_sub_cancel_left _ _).symm

/-- A slice of the bytes of a text, between two boundaries, are the bytes of a text. -/
theorem bytes_of_slice? {t u : Text} {start stop : Nat} (h : t.slice? start stop = some u) :
    u.bytes = t.bytes.extract start stop := by
  have hlist : u.bytes.data.toList = (t.bytes.extract start stop).data.toList := by
    rw [toList_data_bytes, utf8_of_slice? h, ByteArray.data_extract, Array.toList_extract,
      toList_data_bytes, List.extract_eq_take_drop, List.drop_take]
  exact ByteArray.ext (Array.toList_inj.1 hlist)

theorem isValidUTF8_bytes (t : Text) : t.bytes.IsValidUTF8 :=
  (String.ofList t).isValidUTF8

/-! ## Characters of one byte -/

/-- A character below 128 has its byte where it stands. -/
theorem getElem?_utf8_of_lt {a : Char} (ha : a.toNat < 128) (u v : Text) :
    (utf8 (u ++ a :: v))[u.size]? = some a.toUInt8 := by
  rw [utf8_append, ← length_utf8, List.getElem?_append_right (Nat.le_refl _), Nat.sub_self,
    utf8_cons_of_lt ha, List.getElem?_cons_zero]

/-- Where a byte below 128 stands, the text can be broken in front of its character. -/
theorem exists_of_getElem?_utf8 {a : Char} (ha : a.toNat < 128) {t : Text} {i : Nat}
    (h : t.utf8[i]? = some a.toUInt8) : ∃ u v, t = u ++ a :: v ∧ u.size = i := by
  induction t generalizing i with
  | nil => simp at h
  | cons c t ih =>
    by_cases hi : i < c.utf8Size
    · obtain ⟨rfl, rfl⟩ := eq_of_getElem?_utf8_cons ha hi h
      exact ⟨[], t, rfl, rfl⟩
    · obtain ⟨m, rfl⟩ := Nat.exists_eq_add_of_le (Nat.not_lt.1 hi)
      rw [utf8_cons, ← String.length_utf8EncodeChar,
        List.getElem?_append_right (Nat.le_add_right _ _), Nat.add_sub_cancel_left] at h
      obtain ⟨u, v, rfl, rfl⟩ := ih h
      exact ⟨c :: u, v, rfl, rfl⟩

end Text

end Folio
