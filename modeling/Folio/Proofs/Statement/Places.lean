import Folio.Proofs.Statement.Items

/-!
# The places of statements

`locate` gives the statements among some items the offsets at which they stand. It is told
here for items side by side (`locate_append`) and for items further on (`locate_add`).

A text can be broken in two ways so that nothing on one side of the break has a part in
what is found on the other : where a line ends (`items_append_newline`) and behind a
statement (`items_append_statement`). The reason is the same. A loose opening in front of
the break has no close before it, and its line has ended there.
-/

namespace Folio

/-! ## Offsets -/

/-- The statement that stands `n` bytes further on. -/
def Statement.shift (n : Nat) (s : Statement) : Statement :=
  ⟨s.body, n + s.start⟩

namespace Statement

@[simp] theorem start_shift (n : Nat) (s : Statement) : (s.shift n).start = n + s.start := rfl

@[simp] theorem stop_shift (n : Nat) (s : Statement) : (s.shift n).stop = n + s.stop :=
  Nat.add_assoc ..

end Statement

theorem locate_add (n : Nat) : ∀ (l : List Item) (start : Nat),
    locate (n + start) l = (locate start l).map (Statement.shift n)
  | [], _ => rfl
  | .char c :: rest, start => by
    rw [locate, locate, Nat.add_assoc, locate_add n rest]
  | .statement body :: rest, start => by
    rw [locate, locate, Nat.add_assoc, List.map_cons, locate_add n rest]
    rfl

theorem locate_append (start : Nat) (a b : List Item) :
    locate start (a ++ b) = locate start a ++ locate (start + (written a).size) b := by
  induction a generalizing start with
  | nil => rfl
  | cons i a ih =>
    cases i with
    | char c => simp [locate, ih, Nat.add_assoc]
    | statement body =>
      rw [List.cons_append, locate, ih, locate, written_cons, Text.size_append, List.cons_append,
        Nat.add_assoc]
      rfl

theorem exists_of_locate_eq {l : List Item} {start : Nat} {p : List Statement} {s : Statement}
    {q : List Statement} (h : locate start l = p ++ s :: q) :
    ∃ a b, l = a ++ .statement s.body :: b ∧ s.start = start + (written a).size ∧
      locate start a = p ∧ locate s.stop b = q := by
  induction l generalizing start p with
  | nil => simp [locate] at h
  | cons i l ih =>
    cases i with
    | char c =>
      obtain ⟨a, b, rfl, hs, hp, hq⟩ := ih h
      exact ⟨.char c :: a, b, rfl, by rw [hs, written_char, Text.size_cons, Nat.add_assoc], hp, hq⟩
    | statement body =>
      cases p with
      | nil =>
        obtain ⟨rfl, hq⟩ := List.cons.inj h
        exact ⟨[], l, rfl, rfl, rfl, hq⟩
      | cons first p =>
        obtain ⟨rfl, hrest⟩ := List.cons.inj h
        obtain ⟨a, b, rfl, hs, rfl, hq⟩ := ih hrest
        refine ⟨.statement body :: a, b, rfl, ?_, rfl, hq⟩
        rw [hs, written_cons, Text.size_append, Nat.add_assoc]
        rfl

theorem mem_of_mem_locate {l : List Item} {start : Nat} {s : Statement}
    (h : s ∈ locate start l) : .statement s.body ∈ l := by
  obtain ⟨p, q, hpq⟩ := List.append_of_mem h
  obtain ⟨a, b, rfl, -, -, -⟩ := exists_of_locate_eq hpq
  simp

theorem exists_mem_locate {l : List Item} {body : Text} (h : .statement body ∈ l) (start : Nat) :
    ∃ s ∈ locate start l, s.body = body := by
  obtain ⟨a, b, rfl⟩ := List.append_of_mem h
  rw [locate_append]
  exact ⟨_, List.mem_append_right _ List.mem_cons_self, rfl⟩

/-! ## The end of a line -/

/-- The search for a close ends with the line. -/
theorem close?_append_newline (t u : Text) :
    close? (t ++ '\n' :: u) =
      (close? t).map fun (body, after) => (body, after ++ '\n' :: u) := by
  fun_induction close? t with
  | case1 => rw [List.nil_append, close?_newline, Option.map_none]
  | case2 rest => rw [List.cons_append, close?_newline, Option.map_none]
  | case3 rest => rfl
  | case4 c rest hn hd ih =>
    have hd' : ∀ v, c = '>' → rest ++ '\n' :: u ≠ '$' :: v := by
      intro v hc hv
      cases rest with
      | nil => simp at hv
      | cons d rest =>
        obtain ⟨rfl, -⟩ := List.cons.inj hv
        exact hd rest hc rfl
    rw [List.cons_append, close?_cons hn hd', ih, Option.map_map, Option.map_map]
    rfl

theorem Settled.append_newline : ∀ {l m : List Item}, Settled l → Settled m →
    Settled (l ++ .char '\n' :: m)
  | [], _, _, hm => ⟨fun _ hc => absurd hc (by decide), hm⟩
  | .statement _ :: _, _, hl, hm => ⟨hl.1, hl.2.append_newline hm⟩
  | .char c :: rest, m, hl, hm => by
    rw [List.cons_append]
    refine ⟨fun after hc he => ?_, hl.2.append_newline hm⟩
    cases rest with
    | nil => simp at he
    | cons i rest =>
      rw [List.cons_append] at he
      obtain ⟨rfl, rfl⟩ := List.cons.inj he
      rw [written_append, written_char, close?_append_newline, hl.1 rest hc rfl, Option.map_none]

/-- The items of two texts with a line end between them. -/
theorem items_append_newline (t u : Text) :
    items (t ++ '\n' :: u) = items t ++ .char '\n' :: items u :=
  items_eq_iff.2 ⟨(settled_items t).append_newline (settled_items u), by simp⟩

/-- The statements of two texts with a line end between them. -/
theorem scan_append_newline (t u : Text) :
    scan (t ++ '\n' :: u) = scan t ++ (scan u).map (Statement.shift (t.size + 1)) := by
  have hnewline : '\n'.utf8Size = 1 := by decide
  rw [scan, items_append_newline, locate_append, locate, written_items, hnewline, Nat.zero_add,
    ← Nat.add_zero (t.size + 1), locate_add]
  rfl

/-! ## The end of a statement -/

/-- If a close further on is out of reach, what stands there does not matter. -/
theorem close?_append_eq_none {t u : Text} (h : close? (t ++ u) = none) (hu : close? u ≠ none)
    (v : Text) : close? (t ++ v) = none := by
  induction t with
  | nil => exact absurd h hu
  | cons c t ih =>
    rw [List.cons_append] at h ⊢
    by_cases hc : c = '\n'
    · rw [hc, close?_newline]
    have hd : ∀ w, c = '>' → t ++ u ≠ '$' :: w := by
      rintro w rfl hw
      rw [hw, close?_delimiter] at h
      cases h
    rw [close?_cons hc hd, Option.map_eq_none_iff] at h
    have hd' : ∀ w, c = '>' → t ++ v ≠ '$' :: w := by
      intro w hgt hw
      cases t with
      | nil => exact hu h
      | cons d t =>
        obtain ⟨rfl, -⟩ := List.cons.inj hw
        exact hd _ hgt rfl
    rw [close?_cons hc hd', ih h, Option.map_none]

/-- A close is found in a statement at the latest. -/
theorem close?_written_statement {body : Text} (h : close? (body ++ ['>', '$']) = some (body, []))
    (l : List Item) :
    close? (written (.statement body :: l)) = some ('$' :: '<' :: body, written l) := by
  have hclose : close? (body ++ '>' :: '$' :: written l) = some (body, written l) := by
    simpa using close?_append h (written l)
  rw [written_statement, close?_cons (by decide) (by simp), close?_cons (by decide) (by simp),
    hclose]
  rfl

theorem Settled.append_statement {body : Text} {after m : List Item} :
    ∀ {l : List Item}, Settled (l ++ .statement body :: after) → Settled m →
      Settled (l ++ .statement body :: m)
  | [], h, hm => ⟨h.1, hm⟩
  | .statement _ :: _, h, hm => ⟨h.1, h.2.append_statement hm⟩
  | .char c :: rest, h, hm => by
    rw [List.cons_append] at h ⊢
    refine ⟨fun tail hc he => ?_, h.2.append_statement hm⟩
    cases rest with
    | nil => simp at he
    | cons i rest =>
      rw [List.cons_append] at he
      obtain ⟨rfl, rfl⟩ := List.cons.inj he
      have hnone := h.1 (rest ++ .statement body :: after) hc rfl
      have hbody : .statement body ∈ .char c :: .char '<' :: rest ++ .statement body :: after := by
        simp
      have hclose := close?_written_statement (h.body hbody) after
      rw [written_append] at hnone ⊢
      exact close?_append_eq_none hnone (by rw [hclose]; simp) _

/-- In front of a statement and in the statement itself nothing changes with the text
behind it. -/
theorem items_append_statement {t body : Text} {l after : List Item}
    (h : items t = l ++ .statement body :: after) (u : Text) :
    items (written (l ++ [.statement body]) ++ u) = l ++ .statement body :: items u := by
  have hsettled : Settled (l ++ .statement body :: after) := h ▸ settled_items t
  exact items_eq_iff.2 ⟨hsettled.append_statement (settled_items u), by simp⟩

end Folio
