import Folio.Text.Basic

/-!
# The order of texts

Texts are compared character by character, by the numbers of the characters, and
a text comes before every longer one that begins with it. The bytes of the UTF-8
forms give the same order.
-/

namespace Folio.Text

/-- Whether a text comes before another one. -/
def isBefore : Text → Text → Bool
  | [], [] => false
  | [], _ :: _ => true
  | _ :: _, [] => false
  | a :: s, b :: t => if a = b then isBefore s t else a.toNat < b.toNat

/-- Whether a text comes before another one or is the same. -/
def isUpTo (s t : Text) : Bool :=
  !isBefore t s

@[simp] theorem isBefore_self (t : Text) : isBefore t t = false := by
  induction t with
  | nil => rfl
  | cons c t ih => simpa [isBefore] using ih

theorem isBefore_trans {s t u : Text} (h : isBefore s t) (h' : isBefore t u) : isBefore s u := by
  fun_induction isBefore s t generalizing u with
  | case1 => exact h'
  | case2 => cases u <;> simp_all [isBefore]
  | case3 => cases h
  | case4 s c t ih =>
    cases u with
    | nil => cases h'
    | cons d u =>
      by_cases hd : c = d
      · subst hd
        simp only [isBefore, if_true] at h' ⊢
        exact ih h h'
      · simpa [isBefore, hd] using h'
  | case5 a s b t hab =>
    cases u with
    | nil => cases h'
    | cons c u =>
      have hab' : a.toNat < b.toNat := by simpa using h
      by_cases hc : b = c
      · subst hc
        simpa [isBefore, hab] using hab'
      · have hbc : b.toNat < c.toNat := by simpa [isBefore, hc] using h'
        have hac : a ≠ c := by
          rintro rfl
          exact Nat.lt_asymm hab' hbc
        simpa [isBefore, hac] using Nat.lt_trans hab' hbc

/-- Of two different texts one comes first. -/
theorem isBefore_of_ne {s t : Text} (hne : s ≠ t) (h : isBefore s t = false) : isBefore t s := by
  fun_induction isBefore s t with
  | case1 => exact absurd rfl hne
  | case2 => cases h
  | case3 => rfl
  | case4 a s t ih => simpa [isBefore] using ih (fun e => hne (by rw [e])) h
  | case5 a s b t hab =>
    have hle : b.toNat ≤ a.toNat := by simpa using h
    have hba : b.toNat ≠ a.toNat := fun e => hab (Char.toNat_inj.1 e).symm
    simpa [isBefore, Ne.symm hab] using Nat.lt_of_le_of_ne hle hba

end Folio.Text
