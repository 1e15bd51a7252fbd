import Folio.Path

/-!
# The order of paths

Texts are in a linear order, and so are components and, position by position, lists of
components. Hence the order of paths is transitive and total (`Path.le_trans`,
`Path.le_total`), so that a list of paths that was sorted by it is sorted, and two paths
that come before each other have the same components (`Path.components_eq_of_le_of_le`).
-/

namespace Folio

/-! ## Texts -/

namespace Text

variable {s t u : Text}

theorem isBefore_asymm (h : s.isBefore t) : t.isBefore s = false := by
  rw [← Bool.not_eq_true]
  intro h'
  have hself := isBefore_trans h h'
  rw [isBefore_self] at hself
  cases hself

theorem isUpTo_iff : s.isUpTo t ↔ s = t ∨ s.isBefore t := by
  rw [isUpTo, Bool.not_eq_true']
  constructor
  · intro h
    by_cases heq : s = t
    · exact Or.inl heq
    · exact Or.inr (isBefore_of_ne (Ne.symm heq) h)
  · rintro (rfl | h)
    · exact isBefore_self s
    · exact isBefore_asymm h

theorem isUpTo_trans (h : s.isUpTo t) (h' : t.isUpTo u) : s.isUpTo u := by
  rw [isUpTo_iff] at h h' ⊢
  rcases h with rfl | h
  · exact h'
  · rcases h' with rfl | h'
    · exact Or.inr h
    · exact Or.inr (isBefore_trans h h')

theorem isUpTo_total (s t : Text) : s.isUpTo t ∨ t.isUpTo s := by
  rw [isUpTo_iff, isUpTo_iff]
  by_cases heq : s = t
  · exact Or.inl (Or.inl heq)
  · by_cases h : s.isBefore t
    · exact Or.inl (Or.inr h)
    · exact Or.inr (Or.inr (isBefore_of_ne heq (by simpa using h)))

theorem isUpTo_antisymm (h : s.isUpTo t) (h' : t.isUpTo s) : s = t := by
  rcases isUpTo_iff.1 h with heq | hbefore
  · exact heq
  · rcases isUpTo_iff.1 h' with heq | hafter
    · exact heq.symm
    · rw [isBefore_asymm hbefore] at hafter
      cases hafter

end Text

namespace Path

/-! ## Components -/

namespace Component

variable {a b c : Folio.Component}

/-- Names are compared as texts, and all else by its kind. -/
theorem le_iff : le a b ↔ (∃ m n, a = .name m ∧ b = .name n ∧ m.isUpTo n) ∨
    (rank a ≤ rank b ∧ ¬(rank a = 3 ∧ rank b = 3)) := by
  cases a <;> cases b <;> simp [le, rank]

theorem le_trans (h : le a b) (h' : le b c) : le a c := by
  rw [le_iff] at h h' ⊢
  rcases h with ⟨m, n, rfl, rfl, h⟩ | ⟨h, hkinds⟩
  · rcases h' with ⟨n', o, hn, rfl, h'⟩ | ⟨h', hkinds'⟩
    · cases hn
      exact Or.inl ⟨m, o, rfl, rfl, Text.isUpTo_trans h h'⟩
    · exact Or.inr ⟨h', hkinds'⟩
  · rcases h' with ⟨n, o, rfl, rfl, -⟩ | ⟨h', hkinds'⟩
    · exact Or.inr ⟨h, hkinds⟩
    · exact Or.inr ⟨Nat.le_trans h h', by omega⟩

theorem le_total (a b : Folio.Component) : le a b ∨ le b a := by
  rw [le_iff, le_iff]
  cases a with
  | name m =>
    cases b with
    | name n =>
      exact (Text.isUpTo_total m n).imp (fun h => Or.inl ⟨m, n, rfl, rfl, h⟩)
        fun h => Or.inl ⟨n, m, rfl, rfl, h⟩
    | _ => exact Or.inr (Or.inr (by simp [rank]))
  | _ => cases b <;> simp [rank]

theorem le_antisymm (h : le a b) (h' : le b a) : a = b := by
  cases a with
  | name m =>
    cases b with
    | name n => exact congrArg Component.name (Text.isUpTo_antisymm h h')
    | _ => cases h
  | _ => cases b <;> simp_all [le, rank]

end Component

/-! ## Paths -/

theorem leComponents_trans : ∀ {as bs cs : List Component}, leComponents as bs →
    leComponents bs cs → leComponents as cs
  | [], _, _, _, _ => by simp [leComponents]
  | _ :: _, [], _, h, _ => by cases h
  | _ :: _, _ :: _, [], _, h => by cases h
  | a :: as, b :: bs, c :: cs, h, h' => by
    unfold leComponents at h h' ⊢
    by_cases hab : a = b
    · subst hab
      by_cases hac : a = c
      · rw [if_pos hac] at h' ⊢
        exact leComponents_trans (by simpa using h) h'
      · rwa [if_neg hac] at h' ⊢
    · rw [if_neg hab] at h
      by_cases hbc : b = c
      · rwa [← hbc, if_neg hab]
      · rw [if_neg hbc] at h'
        -- `a` is not `c`, or else it would be `b` too.
        have hac : a ≠ c := fun hac => hab (Component.le_antisymm h (hac ▸ h'))
        rw [if_neg hac]
        exact Component.le_trans h h'

theorem leComponents_total : ∀ as bs : List Component, leComponents as bs ∨ leComponents bs as
  | [], _ => Or.inl (by simp [leComponents])
  | _ :: _, [] => Or.inr (by simp [leComponents])
  | a :: as, b :: bs => by
    unfold leComponents
    by_cases hab : a = b
    · rw [if_pos hab, if_pos hab.symm]
      exact leComponents_total as bs
    · rw [if_neg hab, if_neg (Ne.symm hab)]
      exact Component.le_total a b

theorem eq_of_leComponents : ∀ {as bs : List Component}, leComponents as bs →
    leComponents bs as → as = bs
  | [], [], _, _ => rfl
  | [], _ :: _, _, h => by cases h
  | _ :: _, [], h, _ => by cases h
  | a :: as, b :: bs, h, h' => by
    unfold leComponents at h h'
    by_cases hab : a = b
    · rw [if_pos hab] at h
      rw [if_pos hab.symm] at h'
      rw [hab, eq_of_leComponents h h']
    · rw [if_neg hab] at h
      rw [if_neg (Ne.symm hab)] at h'
      exact absurd (Component.le_antisymm h h') hab

variable {p q r : Path}

theorem le_trans (h : p.le q) (h' : q.le r) : p.le r :=
  leComponents_trans h h'

theorem le_total (p q : Path) : p.le q ∨ q.le p :=
  leComponents_total p.components q.components

/-- Paths that come before each other differ in their spelling at most. -/
theorem components_eq_of_le_of_le (h : p.le q) (h' : q.le p) : p.components = q.components :=
  eq_of_leComponents h h'

/-- A list of paths that was sorted is in their order. -/
theorem pairwise_mergeSort_le (paths : List Path) :
    (paths.mergeSort le).Pairwise fun p q => p.le q := by
  have htotal : ∀ p q : Path, (p.le q || q.le p) = true := by
    intro p q
    rw [Bool.or_eq_true]
    exact le_total p q
  exact @List.pairwise_mergeSort Path le (fun _ _ _ => le_trans) htotal paths

end Path

end Folio
