import Folio.Text.Order

/-!
# Dictionaries ordered by name

A `Dict` binds names to values and lists its bindings in increasing order of
the names. Of two bindings of one name the later one stays (`Dict.get?_extend`).
-/

namespace Folio

/-- Binds `k` in a list that is ordered by its first components. -/
def insertEntry {α : Type _} (k : Text) (v : α) : List (Text × α) → List (Text × α)
  | [] => [(k, v)]
  | e :: rest =>
    if k.isBefore e.1 then (k, v) :: e :: rest
    else if k = e.1 then (k, v) :: rest
    else e :: insertEntry k v rest

theorem mem_insertEntry {α : Type _} {k : Text} {v : α} {l : List (Text × α)} {e : Text × α}
    (h : e ∈ insertEntry k v l) : e = (k, v) ∨ e ∈ l := by
  induction l with
  | nil => simpa [insertEntry] using h
  | cons x rest ih => grind [insertEntry]

theorem insertEntry_ordered {α : Type _} (k : Text) (v : α) {l : List (Text × α)}
    (h : l.Pairwise fun a b => a.1.isBefore b.1) :
    (insertEntry k v l).Pairwise fun a b => a.1.isBefore b.1 := by
  induction l with
  | nil => simp [insertEntry]
  | cons x rest ih =>
    rw [List.pairwise_cons] at h
    unfold insertEntry
    split
    · rename_i hlt
      refine List.pairwise_cons.2 ⟨?_, List.pairwise_cons.2 h⟩
      intro b hb
      rcases List.mem_cons.1 hb with rfl | hb
      · exact hlt
      · exact Text.isBefore_trans hlt (h.1 b hb)
    · split
      · rename_i heq
        exact List.pairwise_cons.2 ⟨fun b hb => heq ▸ h.1 b hb, h.2⟩
      · rename_i hlt hne
        refine List.pairwise_cons.2 ⟨?_, ih h.2⟩
        intro b hb
        rcases mem_insertEntry hb with rfl | hb
        · exact Text.isBefore_of_ne hne (by simpa using hlt)
        · exact h.1 b hb

/-- A finite map from names, listed in the order of the names. -/
structure Dict (α : Type) where
  entries : List (Text × α)
  ordered : entries.Pairwise fun a b => a.1.isBefore b.1

namespace Dict

variable {α : Type}

/-- The dictionary that binds nothing. -/
def empty : Dict α :=
  ⟨[], .nil⟩

instance : EmptyCollection (Dict α) := ⟨empty⟩

instance : Inhabited (Dict α) := ⟨empty⟩

/-- Binds `k` to `v`, whatever it was bound to before. -/
def insert (d : Dict α) (k : Text) (v : α) : Dict α :=
  ⟨insertEntry k v d.entries, insertEntry_ordered k v d.ordered⟩

/-- The value that `k` is bound to. -/
def get? (d : Dict α) (k : Text) : Option α :=
  d.entries.lookup k

/-- Binds each pair in turn on top of `d`. -/
def extend (d : Dict α) (pairs : List (Text × α)) : Dict α :=
  pairs.foldl (fun d e => d.insert e.1 e.2) d

/-- The dictionary of a list of pairs, in which a later pair replaces an earlier one. -/
def ofList (pairs : List (Text × α)) : Dict α :=
  empty.extend pairs

/-- Replaces each value, keeping the names. -/
def map {β : Type} (f : Text → α → β) (d : Dict α) : Dict β where
  entries := d.entries.map fun e => (e.1, f e.1 e.2)
  ordered := List.pairwise_map.2 d.ordered

/-- The bindings in the order of their names. -/
def toList (d : Dict α) : List (Text × α) :=
  d.entries

/-- The number of names bound. -/
def size (d : Dict α) : Nat :=
  d.entries.length

@[ext] theorem ext {d e : Dict α} (h : d.entries = e.entries) : d = e := by
  cases d; cases e; cases h; rfl

theorem lookup_insertEntry (k : Text) (v : α) (l : List (Text × α)) (x : Text) :
    (insertEntry k v l).lookup x = if x = k then some v else l.lookup x := by
  induction l with
  | nil => grind [insertEntry]
  | cons e rest ih =>
    unfold insertEntry
    by_cases hx : x = k <;> by_cases he : x = e.1 <;> grind

/-- Binding a name changes the value of that name alone. -/
@[simp] theorem get?_insert (d : Dict α) (k x : Text) (v : α) :
    (d.insert k v).get? x = if x = k then some v else d.get? x :=
  lookup_insertEntry k v d.entries x

@[simp] theorem get?_empty (x : Text) : (empty : Dict α).get? x = none := rfl

/-! ## Look-ups -/

theorem lookup_pair_cons (k : Text) (v : α) (l : List (Text × α)) (x : Text) :
    ((k, v) :: l).lookup x = if x = k then some v else l.lookup x := by
  by_cases h : x = k
  · simp [h]
  · have hb : (x == k) = false := by simpa using h
    simp [List.lookup_cons, hb, h]

theorem lookup_eq_some_iff_mem {l : List (Text × α)} (hl : l.Pairwise fun a b => a.1 ≠ b.1)
    {x : Text} {v : α} : l.lookup x = some v ↔ (x, v) ∈ l := by
  induction l with
  | nil => simp
  | cons e rest ih =>
    obtain ⟨k, w⟩ := e
    rw [List.pairwise_cons] at hl
    rw [List.mem_cons, lookup_pair_cons, Prod.mk.injEq]
    by_cases hx : x = k
    · subst hx
      have hrest : (x, v) ∉ rest := fun hv => hl.1 _ hv rfl
      simp [hrest, eq_comm]
    · simp [hx, ih hl.2]

/-- No name is bound twice. -/
theorem pairwise_ne (d : Dict α) : d.toList.Pairwise fun a b => a.1 ≠ b.1 := by
  refine d.ordered.imp ?_
  intro a b hab he
  simp [he] at hab

/-- A name is bound to what stands beside it in the list of bindings. -/
theorem get?_eq_some_iff {d : Dict α} {x : Text} {v : α} :
    d.get? x = some v ↔ (x, v) ∈ d.toList :=
  lookup_eq_some_iff_mem d.pairwise_ne

/-- Later bindings hide earlier ones. -/
theorem get?_extend (pairs : List (Text × α)) (d : Dict α) (x : Text) :
    (d.extend pairs).get? x = (pairs.reverse.lookup x).or (d.get? x) := by
  induction pairs generalizing d with
  | nil => rfl
  | cons e rest ih =>
    obtain ⟨k, v⟩ := e
    have hrest : (d.extend ((k, v) :: rest)).get? x = ((d.insert k v).extend rest).get? x := rfl
    rw [hrest, ih, get?_insert, List.reverse_cons, List.lookup_append, Option.or_assoc,
      lookup_pair_cons]
    split <;> rfl

theorem get?_ofList (pairs : List (Text × α)) (x : Text) :
    (ofList pairs).get? x = pairs.reverse.lookup x := by
  rw [ofList, get?_extend, get?_empty, Option.or_none]

/-- The bindings of `e` hide those of `d`. -/
theorem get?_extend_toList (d e : Dict α) (x : Text) :
    (d.extend e.toList).get? x = (e.get? x).or (d.get? x) := by
  rw [get?_extend]
  congr 1
  have hrev : e.toList.reverse.Pairwise fun a b => a.1 ≠ b.1 :=
    List.pairwise_reverse.2 (e.pairwise_ne.imp Ne.symm)
  ext v
  rw [lookup_eq_some_iff_mem hrev, List.mem_reverse, get?_eq_some_iff]

theorem lookup_map {β : Type} (f : Text → α → β) (l : List (Text × α)) (x : Text) :
    (l.map fun e => (e.1, f e.1 e.2)).lookup x = (l.lookup x).map (f x) := by
  induction l with
  | nil => rfl
  | cons e rest ih =>
    obtain ⟨k, v⟩ := e
    rw [List.map_cons, lookup_pair_cons, lookup_pair_cons, ih]
    by_cases hx : x = k
    · subst hx
      simp
    · simp [hx]

@[simp] theorem get?_map {β : Type} (f : Text → α → β) (d : Dict α) (x : Text) :
    (d.map f).get? x = (d.get? x).map (f x) :=
  lookup_map f d.entries x

end Dict

end Folio
