import Folio.Statement.Scan

/-!
# The lists of items that are cut from texts

`items` cuts a text into items, and `written` puts a list of items together again.
Not every list comes from a text : two loose characters `$` and `<` side by side may
open a statement that the list does not have, and the body of a statement may close
too early. `Settled` rules out both.

`items_eq_iff` : the items of a text are the one settled list that is written as the
text. Every question about a text that was put together from pieces becomes a
question about a list of items.
-/

namespace Folio

/-- Items as they are written, one after the other. -/
def written (l : List Item) : Text :=
  l.flatMap Item.text

@[simp] theorem written_nil : written [] = [] := rfl

theorem written_cons (i : Item) (l : List Item) : written (i :: l) = i.text ++ written l := rfl

@[simp] theorem written_char (c : Char) (l : List Item) :
    written (.char c :: l) = c :: written l := rfl

@[simp] theorem written_statement (body : Text) (l : List Item) :
    written (.statement body :: l) = '$' :: '<' :: (body ++ '>' :: '$' :: written l) := by
  simp [written, Item.text, delimited]

@[simp] theorem written_append (l m : List Item) : written (l ++ m) = written l ++ written m :=
  List.flatMap_append

@[simp] theorem written_items (t : Text) : written (items t) = t :=
  render_items t

/-- A list of items that begins with `<` as it is written begins with a loose `<`. -/
theorem eq_char_of_written {l : List Item} {t : Text} (h : written l = '<' :: t) :
    ∃ rest, l = .char '<' :: rest ∧ written rest = t := by
  cases l with
  | nil => simp at h
  | cons i rest =>
    cases i with
    | char c =>
      obtain ⟨rfl, ht⟩ := List.cons.inj h
      exact ⟨rest, rfl, ht⟩
    | statement body => simp at h

/-! ## The search for a close -/

theorem close?_delimiter (t : Text) : close? ('>' :: '$' :: t) = some ([], t) := rfl

/-- Past a character that neither ends the line nor begins a close, the search goes on. -/
theorem close?_cons {c : Char} {t : Text} (hc : c ≠ '\n') (ht : ∀ u, c = '>' → t ≠ '$' :: u) :
    close? (c :: t) = (close? t).map fun (body, after) => (c :: body, after) := by
  rw [close?]
  · exact hc
  · exact ht

/-- What follows on the page does not change where a statement closes. -/
theorem close?_append {t body after : Text} (h : close? t = some (body, after)) (u : Text) :
    close? (t ++ u) = some (body, after ++ u) := by
  fun_induction close? t generalizing body after with
  | case1 => simp at h
  | case2 => simp at h
  | case3 rest =>
    simp only [Option.some.injEq, Prod.mk.injEq] at h
    obtain ⟨rfl, rfl⟩ := h
    rfl
  | case4 c rest hn hd ih =>
    obtain ⟨⟨b, a⟩, hb, he⟩ := Option.map_eq_some_iff.1 h
    cases he
    have hd' : ∀ v, c = '>' → rest ++ u ≠ '$' :: v := by
      intro v hc hv
      cases rest with
      | nil => simp [close?] at hb
      | cons d rest =>
        obtain ⟨rfl, -⟩ := List.cons.inj hv
        exact hd rest hc rfl
    rw [List.cons_append, close?_cons hn hd', ih hb]
    rfl

theorem close?_eq_none_of_append {t u : Text} (h : close? (t ++ u) = none) : close? t = none := by
  cases ht : close? t with
  | none => rfl
  | some r => simp [close?_append ht u] at h

/-- The body of a statement closes at its own end. -/
theorem close?_body {t body after : Text} (h : close? t = some (body, after)) :
    close? (body ++ ['>', '$']) = some (body, []) := by
  fun_induction close? t generalizing body after with
  | case1 => simp at h
  | case2 => simp at h
  | case3 rest =>
    simp only [Option.some.injEq, Prod.mk.injEq] at h
    obtain ⟨rfl, rfl⟩ := h
    rfl
  | case4 c rest hn hd ih =>
    obtain ⟨⟨b, a⟩, hb, he⟩ := Option.map_eq_some_iff.1 h
    cases he
    have hd' : ∀ v, c = '>' → b ++ ['>', '$'] ≠ '$' :: v := by
      intro v hc hv
      have hrest : rest = b ++ '>' :: '$' :: after := close?_eq_append hb
      refine hd (v ++ after) hc ?_
      calc rest = (b ++ ['>', '$']) ++ after := by simp [hrest]
        _ = '$' :: (v ++ after) := by rw [hv, List.cons_append]
    rw [List.cons_append, close?_cons hn hd', ih hb]
    rfl

/-! ## Settled lists -/

/-- Whether a list of items is cut where its text is cut : loose characters open no
statement, and a statement closes at the end of its body. -/
def Settled : List Item → Prop
  | [] => True
  | .char c :: rest =>
    (∀ after, c = '$' → rest = .char '<' :: after → close? (written after) = none) ∧ Settled rest
  | .statement body :: rest => close? (body ++ ['>', '$']) = some (body, []) ∧ Settled rest

/-- The items of a text are settled. -/
theorem settled_items (t : Text) : Settled (items t) := by
  fun_induction items t with
  | case1 => trivial
  | case2 rest body after h ih => exact ⟨close?_body h, ih⟩
  | case3 rest h ih =>
    refine ⟨fun after _ he => ?_, fun after hc => absurd hc (by decide), ih⟩
    obtain ⟨-, rfl⟩ := List.cons.inj he
    rw [written_items]
    exact h
  | case4 c rest hne ih =>
    refine ⟨fun after hc he => ?_, ih⟩
    have hw : rest = '<' :: written after := by rw [← written_items rest, he, written_char]
    exact absurd hw (hne _ hc)

theorem items_statement {body after : Text} (h : close? (body ++ ['>', '$']) = some (body, [])) :
    items ('$' :: '<' :: (body ++ '>' :: '$' :: after)) = .statement body :: items after := by
  have hclose : close? (body ++ '>' :: '$' :: after) = some (body, after) := by
    simpa using close?_append h after
  rw [items]
  split
  · rename_i b a hb
    rw [hclose] at hb
    cases hb
    rfl
  · rename_i hb
    rw [hclose] at hb
    cases hb

theorem items_open {after : Text} (h : close? after = none) :
    items ('$' :: '<' :: after) = .char '$' :: .char '<' :: items after := by
  rw [items]
  split
  · rename_i hb
    rw [h] at hb
    cases hb
  · rfl

/-- A settled list is cut again from what it is written as. -/
theorem items_written : ∀ {l : List Item}, Settled l → items (written l) = l
  | [], _ => by rw [written_nil, items]
  | .statement body :: rest, h => by
    rw [written_statement, items_statement h.1, items_written h.2]
  | .char c :: rest, h => by
    rw [written_char]
    have hrest := items_written h.2
    by_cases hopen : c = '$' ∧ ∃ u, written rest = '<' :: u
    · obtain ⟨rfl, u, hu⟩ := hopen
      obtain ⟨after, rfl, rfl⟩ := eq_char_of_written hu
      rw [written_char, items_open (h.1 after rfl rfl), items_written h.2.2]
    · rw [items_char fun u hc hu => hopen ⟨hc, u, hu⟩, hrest]

/-- The items of a text are the one settled list that is written as the text. -/
theorem items_eq_iff {t : Text} {l : List Item} : items t = l ↔ Settled l ∧ written l = t := by
  constructor
  · rintro rfl
    exact ⟨settled_items t, written_items t⟩
  · rintro ⟨hl, rfl⟩
    exact items_written hl

theorem items_written_iff {l : List Item} : items (written l) = l ↔ Settled l := by
  rw [items_eq_iff]
  exact and_iff_left rfl

/-! ## What settled lists are made of -/

theorem Settled.append_right : ∀ {l m : List Item}, Settled (l ++ m) → Settled m
  | [], _, h => h
  | .char _ :: _, _, h => h.2.append_right
  | .statement _ :: _, _, h => h.2.append_right

theorem Settled.body : ∀ {l : List Item} {body : Text}, Settled l → .statement body ∈ l →
    close? (body ++ ['>', '$']) = some (body, [])
  | .char _ :: rest, body, h, hb => by
    refine h.2.body ?_
    simpa using hb
  | .statement b :: rest, body, h, hb => by
    rcases List.mem_cons.1 hb with he | hb
    · cases he
      exact h.1
    · exact h.2.body hb

/-- A list is settled exactly when all its statements close at their ends and no `$` in front
of a `<` opens another one. -/
theorem settled_iff {l : List Item} :
    Settled l ↔ (∀ body, .statement body ∈ l → close? (body ++ ['>', '$']) = some (body, [])) ∧
      ∀ before after, l = before ++ .char '$' :: .char '<' :: after →
        close? (written after) = none := by
  constructor
  · intro h
    refine ⟨fun body hb => h.body hb, ?_⟩
    rintro before after rfl
    exact h.append_right.1 after rfl rfl
  · rintro ⟨hbody, hopen⟩
    induction l with
    | nil => trivial
    | cons i rest ih =>
      have hrest : Settled rest := ih (fun body hb => hbody body (List.mem_cons_of_mem i hb))
        fun before after he => hopen (i :: before) after (by rw [he, List.cons_append])
      cases i with
      | char c =>
        refine ⟨?_, hrest⟩
        rintro after rfl rfl
        exact hopen [] after rfl
      | statement body => exact ⟨hbody body List.mem_cons_self, hrest⟩

theorem Settled.append_left {l m : List Item} (h : Settled (l ++ m)) : Settled l := by
  obtain ⟨hbody, hopen⟩ := settled_iff.1 h
  refine settled_iff.2 ⟨fun body hb => hbody body (List.mem_append_left m hb), ?_⟩
  rintro before after rfl
  have hnone := hopen before (after ++ m) (by simp)
  rw [written_append] at hnone
  exact close?_eq_none_of_append hnone

end Folio
