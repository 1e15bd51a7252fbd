import Folio.Text.Basic

/-!
# Bytes as text, whatever they are

`Text.ofBytesLossy` reads bytes as UTF-8 and puts the replacement character where
they are not. One replacement stands for the longest run of bytes that begins a
character and is broken off, or else for a single byte.
-/

namespace Folio.Text

/-- The tail bytes that are missing from a character, and the bounds that the
next of them lies in. -/
structure Owed where
  count : Nat
  low : UInt8
  high : UInt8

/-- What the first byte of a character owes. The bounds leave out longer forms
than necessary, surrogates, and numbers behind the last character. -/
def owed? (lead : UInt8) : Option Owed :=
  if lead < 0x80 then some ⟨0, 0x80, 0xBF⟩
  else if lead < 0xC2 then none
  else if lead < 0xE0 then some ⟨1, 0x80, 0xBF⟩
  else if lead = 0xE0 then some ⟨2, 0xA0, 0xBF⟩
  else if lead = 0xED then some ⟨2, 0x80, 0x9F⟩
  else if lead < 0xF0 then some ⟨2, 0x80, 0xBF⟩
  else if lead = 0xF0 then some ⟨3, 0x90, 0xBF⟩
  else if lead < 0xF4 then some ⟨3, 0x80, 0xBF⟩
  else if lead = 0xF4 then some ⟨3, 0x80, 0x8F⟩
  else none

/-- The bits of a first byte that count, when a number of tail bytes follow. -/
def leadBits (tails : Nat) (lead : UInt8) : Nat :=
  if tails = 0 then lead.toNat else lead.toNat % Nat.pow 2 (6 - tails)

/-- Reads the tail bytes of a character whose number so far is `code`. Where they
break off there is no character. What is left of the bytes comes with it. -/
def readTails (code : Nat) : Owed → List UInt8 → Option Nat × List UInt8
  | ⟨0, _, _⟩, rest => (some code, rest)
  | ⟨_ + 1, _, _⟩, [] => (none, [])
  | ⟨n + 1, low, high⟩, b :: rest =>
    if low ≤ b ∧ b ≤ high then readTails (code * 64 + b.toNat % 64) ⟨n, 0x80, 0xBF⟩ rest
    else (none, b :: rest)
termination_by _ rest => rest.length

theorem length_readTails_le (code : Nat) (o : Owed) (bytes : List UInt8) :
    (readTails code o bytes).2.length ≤ bytes.length := by
  fun_induction readTails code o bytes with
  | case1 => simp
  | case2 => simp
  | case3 _ _ _ _ _ _ _ ih => exact Nat.le_succ_of_le ih
  | case4 => simp

/-- The character that stands for bytes that are none. -/
def replacement : Char :=
  '\uFFFD'

/-- Reads bytes as characters. -/
def decodeLossy : List UInt8 → Text
  | [] => []
  | lead :: rest =>
    match owed? lead with
    | none => replacement :: decodeLossy rest
    | some o =>
      let read := readTails (leadBits o.count lead) o rest
      (read.1.elim replacement Char.ofNat) :: decodeLossy read.2
termination_by bytes => bytes.length
decreasing_by
  · simp
  · exact Nat.lt_succ_of_le (length_readTails_le _ _ _)

/-- Reads bytes as a text. -/
def ofBytesLossy (bytes : ByteArray) : Text :=
  decodeLossy bytes.toList

end Folio.Text
