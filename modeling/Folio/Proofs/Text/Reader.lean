import Mathlib.Data.List.TakeWhile
import Folio.Text.Reader

/-!
# What readers give

`Reader.Gives r p` says that whatever a reader `r` takes off the front of a text, it gives a
value of which `p` holds together with the text that was taken. `Reader.Yields r p` says
something of the value alone, and nothing of how it was read. There is one rule for each
way to make a reader from others, so that what a reader gives follows from what its parts
give. The rules for `many` are inductions on its turns.
-/

namespace Folio.Reader

variable {σ α β : Type} {r r' : ReaderOf σ α} {s : α → ReaderOf σ β} {p p' : List σ → α → Prop}
  {q : List σ → β → Prop}

/-- What one of two readers gives is from the first or from the second one. -/
theorem eq_some_of_orElse {t : List σ} {x : α × List σ} (h : (r <|> r') t = some x) :
    r t = some x ∨ r' t = some x := by
  have hor : (r t <|> r' t) = some x := h
  cases hr : r t with
  | some y =>
    rw [hr] at hor
    exact Or.inl hor
  | none =>
    rw [hr] at hor
    exact Or.inr hor

theorem eq_some_of_readAll {t : List σ} {a : α} (h : readAll r t = some a) :
    r t = some (a, []) := by
  unfold readAll at h
  split at h
  · rename_i hr
    cases h
    exact hr
  · cases h

/-- Whether `p` holds of all that a reader may take and of the value that it gives for it. -/
def Gives (r : ReaderOf σ α) (p : List σ → α → Prop) : Prop :=
  ∀ t a rest, r t = some (a, rest) → ∃ taken, t = taken ++ rest ∧ p taken a

theorem gives_refuse (p : List σ → α → Prop) : Gives refuse p :=
  nofun

theorem gives_pure {a : α} (h : p [] a) : Gives (pure a) p := by
  intro t b rest hread
  cases hread
  exact ⟨[], rfl, h⟩

namespace Gives

theorem mono (h : Gives r p) (hp : ∀ taken a, p taken a → p' taken a) : Gives r p' := by
  intro t a rest hread
  obtain ⟨taken, ht, ha⟩ := h t a rest hread
  exact ⟨taken, ht, hp taken a ha⟩

/-- A reader after another one : what they take stands side by side. -/
theorem bind (h : Gives r p) (hs : ∀ taken a, p taken a → Gives (s a) fun more b =>
    q (taken ++ more) b) : Gives (r >>= s) q := by
  intro t b rest hread
  obtain ⟨⟨a, middle⟩, hr, hrest⟩ := Option.bind_eq_some_iff.1 hread
  obtain ⟨taken, rfl, ha⟩ := h t a middle hr
  obtain ⟨more, rfl, hb⟩ := hs taken a ha middle b rest hrest
  exact ⟨taken ++ more, (List.append_assoc _ _ _).symm, hb⟩

theorem orElse (h : Gives r p) (h' : Gives r' p) : Gives (r <|> r') p :=
  fun t a rest hread => (eq_some_of_orElse hread).elim (h t a rest) (h' t a rest)

/-- Turns one after the other, by induction from the last one. -/
theorem many {q : List σ → List α → Prop} (h : Gives r p) (hnil : q [] [])
    (hcons : ∀ taken a more as, p taken a → q more as → q (taken ++ more) (a :: as)) :
    Gives (many r) q := by
  have hmany : ∀ t, ∃ taken, t = taken ++ (manyOf r t).2 ∧ q taken (manyOf r t).1 := by
    intro t
    fun_induction manyOf r t with
    | case1 t hr => exact ⟨[], rfl, hnil⟩
    | case2 t a rest hr hless as last heq ih =>
      rw [heq] at ih
      obtain ⟨taken, rfl, ha⟩ := h t a rest hr
      obtain ⟨more, hrest, has⟩ := ih
      refine ⟨taken ++ more, ?_, hcons taken a more as ha has⟩
      rw [List.append_assoc, ← hrest]
    | case3 t a rest hr hless => exact ⟨[], rfl, hnil⟩
  intro t as rest hread
  obtain ⟨taken, ht, has⟩ := hmany t
  obtain ⟨rfl, rfl⟩ := Prod.mk.inj (Option.some.inj hread)
  exact ⟨taken, ht, has⟩

end Gives

/-! ## Readers without parts -/

theorem gives_satisfy (p : σ → Bool) : Gives (satisfy p) fun taken c => taken = [c] ∧ p c := by
  intro t c rest hread
  cases t with
  | nil => cases hread
  | cons d more =>
    have hif : (if p d then some (d, more) else none) = some (c, rest) := hread
    split at hif
    · rename_i hd
      cases hif
      exact ⟨[c], rfl, rfl, hd⟩
    · cases hif

theorem gives_anyChar : Gives anyChar fun taken c => taken = [c] := by
  intro t c rest hread
  cases t with
  | nil => cases hread
  | cons d more =>
    cases hread
    exact ⟨[c], rfl, rfl⟩

theorem gives_char (c : Char) : Gives (char c) fun taken _ => taken = [c] := by
  intro t u rest hread
  cases t with
  | nil => cases hread
  | cons d more =>
    have hif : (if d = c then some ((), more) else none) = some (u, rest) := hread
    split at hif
    · rename_i hd
      cases hif
      exact ⟨[d], rfl, by rw [hd]⟩
    · cases hif

theorem eq_append_of_isPrefixOf? {word t rest : Text} (h : word.isPrefixOf? t = some rest) :
    t = word ++ rest := by
  induction word generalizing t with
  | nil => exact Option.some.inj h
  | cons c word ih =>
    cases t with
    | nil => cases h
    | cons d t =>
      have hif : (if (c == d) = true then word.isPrefixOf? t else none) = some rest := h
      split at hif
      · rename_i hc
        rw [ih hif, eq_of_beq hc]
        rfl
      · cases hif

theorem gives_literal (word : Text) : Gives (literal word) fun taken _ => taken = word := by
  intro t u rest hread
  obtain ⟨last, hlast, heq⟩ := Option.map_eq_some_iff.1 hread
  cases heq
  exact ⟨word, eq_append_of_isPrefixOf? hlast, rfl⟩

theorem gives_run1 (p : σ → Bool) :
    Gives (run1 p) fun taken cs => taken = cs ∧ cs ≠ [] ∧ ∀ c ∈ cs, p c := by
  intro t cs rest hread
  unfold run1 at hread
  split at hread
  · cases hread
  · rename_i hne
    cases hread
    exact ⟨_, List.takeWhile_append_dropWhile.symm, rfl, hne, fun c => List.mem_takeWhile_imp⟩

theorem gives_notHere (r : ReaderOf σ α) : Gives (notHere r) fun taken _ => taken = [] := by
  intro t u rest hread
  unfold notHere at hread
  split at hread
  · cases hread
  · cases hread
    exact ⟨[], rfl, rfl⟩

theorem gives_startsWith (word : Text) :
    Gives (startsWith word) fun taken _ => taken = [] := by
  intro t b rest hread
  cases hread
  exact ⟨[], rfl, rfl⟩

theorem gives_atEnd : Gives (atEnd : ReaderOf σ Unit) fun taken _ => taken = [] := by
  intro t u rest hread
  cases t with
  | nil =>
    cases hread
    exact ⟨[], rfl, rfl⟩
  | cons c more => cases hread

/-! ## Values alone -/

/-- Whether `p` holds of all values that a reader may give. -/
def Yields (r : ReaderOf σ α) (p : α → Prop) : Prop :=
  ∀ t a rest, r t = some (a, rest) → p a

theorem yields_any (r : ReaderOf σ α) : Yields r fun _ => True :=
  fun _ _ _ _ => trivial

theorem yields_refuse (p : α → Prop) : Yields (refuse : ReaderOf σ α) p :=
  nofun

theorem yields_pure {p : α → Prop} {a : α} (h : p a) : Yields (pure a : ReaderOf σ α) p := by
  intro t b rest hread
  cases hread
  exact h

namespace Yields

variable {p : α → Prop} {q : β → Prop}

theorem bind (h : Yields r p) (hs : ∀ a, p a → Yields (s a) q) : Yields (r >>= s) q := by
  intro t b rest hread
  obtain ⟨⟨a, middle⟩, hr, hrest⟩ := Option.bind_eq_some_iff.1 hread
  exact hs a (h t a middle hr) middle b rest hrest

theorem orElse (h : Yields r p) (h' : Yields r' p) : Yields (r <|> r') p :=
  fun t a rest hread => (eq_some_of_orElse hread).elim (h t a rest) (h' t a rest)

theorem optional (h : Yields r p) : Yields (optional r) fun o => ∀ a ∈ o, p a := by
  intro t o rest hread
  unfold Reader.optional at hread
  split at hread
  · rename_i x last hr
    cases hread
    intro a ha
    exact h t a rest (by rw [hr, Option.mem_some_iff.1 ha])
  · cases hread
    exact nofun

theorem many (h : Yields r p) : Yields (many r) fun as => ∀ a ∈ as, p a := by
  have hmany : ∀ t, ∀ a ∈ (manyOf r t).1, p a := by
    intro t
    fun_induction manyOf r t with
    | case1 t hr => exact nofun
    | case2 t a rest hr hless as last heq ih =>
      rw [heq] at ih
      exact List.forall_mem_cons.2 ⟨h t a rest hr, ih⟩
    | case3 t a rest hr hless => exact nofun
  intro t as rest hread
  obtain ⟨rfl, rfl⟩ := Prod.mk.inj (Option.some.inj hread)
  exact hmany t

end Yields

/-! ## Reading to the end -/

/-- What is read to the end takes the whole text. -/
theorem Gives.readAll {t : List σ} {a : α} (h : Gives r p) (hread : readAll r t = some a) :
    p t a := by
  obtain ⟨taken, rfl, ha⟩ := h t a [] (eq_some_of_readAll hread)
  rwa [List.append_nil]

theorem Yields.readAll {p : α → Prop} {t : List σ} {a : α} (h : Yields r p)
    (hread : readAll r t = some a) : p a :=
  h t a [] (eq_some_of_readAll hread)

end Folio.Reader
