import Mathlib
import Folio.Data.Flatten

/-!
# The leaves of a value

A path leads into a value : through an object by keys, and through a list by the decimal digits
of positions (`Value.at?`). The leaves of a value are the scalars inside it, depth first, each
with its path (`Value.scalars`). If the fields of all objects are in order there is one leaf for
each path that leads to a scalar (`Value.mem_scalars_iff`, `Value.nodup_paths`).

`Value.flatten` binds the paths of the leaves with dots between their parts, and of several
leaves with one dotted path it keeps the last (`Value.get?_flatten`). Where no key holds a dot
a dotted path can be taken apart again (`Value.dotted_inj`), so that no leaf hides another
one : `Value.flatten_leaves`.
-/

namespace Folio

namespace Dict

variable {α : Type} {pairs : List (Text × α)}

/-- A dictionary of different names lists what it was made from, in another order. -/
theorem perm_toList_ofList (h : pairs.Pairwise fun a b => a.1 ≠ b.1) :
    (ofList pairs).toList.Perm pairs := by
  have hrev : pairs.reverse.Pairwise fun a b => a.1 ≠ b.1 :=
    List.pairwise_reverse.2 (h.imp Ne.symm)
  have hnodup : ∀ {l : List (Text × α)}, (l.Pairwise fun a b => a.1 ≠ b.1) → l.Nodup :=
    fun hl => hl.imp fun hab he => hab (congrArg Prod.fst he)
  refine (List.perm_ext_iff_of_nodup (hnodup (pairwise_ne _)) (hnodup h)).2 ?_
  rintro ⟨x, v⟩
  rw [← get?_eq_some_iff, get?_ofList, lookup_eq_some_iff_mem hrev, List.mem_reverse]

/-- What a list of pairs gives a name is in the last pair with that name. -/
theorem lookup_reverse (pairs : List (Text × α)) (x : Text) :
    pairs.reverse.lookup x = ((pairs.filter fun e => e.1 = x).getLast?).map Prod.snd := by
  rw [List.getLast?_eq_head?_reverse, ← List.filter_reverse, List.head?_filter]
  induction pairs.reverse with
  | nil => rfl
  | cons e rest ih =>
    obtain ⟨k, v⟩ := e
    by_cases hk : k = x
    · simp [hk]
    · simp [lookup_pair_cons, hk, Ne.symm hk, ih]

end Dict

namespace Value

/-! ## Members and paths -/

/-- Whether a value has no members. -/
def isScalar : Value → Bool
  | .list _ => false
  | .object _ => false
  | _ => true

/-- Items under the digits of their positions, the first of which is `i`. -/
def numbered (i : Nat) : List Value → List (Text × Value)
  | [] => []
  | v :: rest => (Text.ofNat i, v) :: numbered (i + 1) rest

/-- The members of a value, each under its key or under the digits of its position. -/
def members : Value → List (Text × Value)
  | .list items => numbered 0 items
  | .object fields => fields
  | _ => []

/-- What a path leads to. -/
def at? (v : Value) : List Text → Option Value
  | [] => some v
  | k :: path => (v.members.lookup k).bind fun c => c.at? path

/-- The parts of a path with dots between them. -/
def dotted (path : List Text) : Text :=
  Text.join ['.'] path

/-- Whether something holds of the fields of every object inside a value. -/
inductive EveryObject (p : List (Text × Value) → Prop) : Value → Prop
  | intro {v : Value} (own : ∀ fields, v = .object fields → p fields)
      (inside : ∀ m ∈ v.members, EveryObject p m.2) : EveryObject p v

/-- Whether the fields of every object are in the order of their keys. -/
def Ordered (v : Value) : Prop :=
  v.EveryObject fun fields => fields.Pairwise fun a b => a.1.isBefore b.1

/-- Whether no key of an object holds a dot. -/
def Dotless (v : Value) : Prop :=
  v.EveryObject fun fields => ∀ f ∈ fields, '.' ∉ f.1

mutual

/-- The scalars inside a value, depth first, each with the path that leads to it. -/
def scalars : Value → List (List Text × Value)
  | .list items => scalarsOfItems 0 items
  | .object fields => scalarsOfFields fields
  | scalar => [([], scalar)]

/-- The scalars inside the items of a list, the first of which is item `i`. -/
def scalarsOfItems (i : Nat) : List Value → List (List Text × Value)
  | [] => []
  | v :: rest =>
    (scalars v).map (fun e => (Text.ofNat i :: e.1, e.2)) ++ scalarsOfItems (i + 1) rest

/-- The scalars inside the fields of an object. -/
def scalarsOfFields : List (Text × Value) → List (List Text × Value)
  | [] => []
  | (k, v) :: rest => (scalars v).map (fun e => (k :: e.1, e.2)) ++ scalarsOfFields rest

end

variable {v c : Value} {k name : Text} {path : List Text} {items : List Value}
  {fields : List (Text × Value)} {p : List (Text × Value) → Prop}

/-! ## Going through the members -/

theorem exists_mem_of_mem_numbered {i : Nat} (h : (k, c) ∈ numbered i items) :
    c ∈ items ∧ ∃ j, i ≤ j ∧ k = Text.ofNat j := by
  induction items generalizing i with
  | nil => cases h
  | cons v rest ih =>
    rcases List.mem_cons.1 h with heq | h
    · cases heq
      exact ⟨List.mem_cons_self, i, Nat.le_refl i, rfl⟩
    · obtain ⟨hmem, j, hj, hk⟩ := ih h
      exact ⟨List.mem_cons_of_mem v hmem, j, by omega, hk⟩

theorem sizeOf_lt_of_mem_members (h : (k, c) ∈ v.members) : sizeOf c < sizeOf v := by
  cases v with
  | list items =>
    have hmem := List.sizeOf_lt_of_mem (exists_mem_of_mem_numbered h).1
    simp only [Value.list.sizeOf_spec]
    omega
  | object fields =>
    have hmem : sizeOf (k, c) < sizeOf fields := List.sizeOf_lt_of_mem h
    simp only [Value.object.sizeOf_spec, Prod.mk.sizeOf_spec] at hmem ⊢
    omega
  | _ => cases h

/-- What holds of a value as soon as it holds of its members holds of every value. -/
theorem members_induction {motive : Value → Prop}
    (step : ∀ v, (∀ m ∈ v.members, motive m.2) → motive v) (v : Value) : motive v :=
  step v fun m _ => members_induction step m.2
termination_by sizeOf v
decreasing_by exact sizeOf_lt_of_mem_members ‹_›

theorem members_of_isScalar (h : v.isScalar) : v.members = [] := by
  cases v <;> first | rfl | cases h

theorem scalarsOfItems_eq (i : Nat) (items : List Value) :
    scalarsOfItems i items =
      (numbered i items).flatMap fun m => m.2.scalars.map fun e => (m.1 :: e.1, e.2) := by
  induction items generalizing i with
  | nil => rfl
  | cons v rest ih => rw [scalarsOfItems, ih, numbered, List.flatMap_cons]

theorem scalarsOfFields_eq (fields : List (Text × Value)) :
    scalarsOfFields fields =
      fields.flatMap fun m => m.2.scalars.map fun e => (m.1 :: e.1, e.2) := by
  induction fields with
  | nil => rfl
  | cons f rest ih => rw [scalarsOfFields, ih, List.flatMap_cons]

theorem scalars_of_isScalar (h : v.isScalar) : v.scalars = [([], v)] := by
  cases v <;> first | rfl | cases h

/-- The leaves of a value are those of its members. -/
theorem scalars_eq (h : ¬v.isScalar) :
    v.scalars = v.members.flatMap fun m => m.2.scalars.map fun e => (m.1 :: e.1, e.2) := by
  cases v with
  | list items => exact scalarsOfItems_eq 0 items
  | object fields => exact scalarsOfFields_eq fields
  | _ => exact absurd rfl h

theorem leavesOfItems_eq (parent : Option Text) (i : Nat) (items : List Value) :
    leavesOfItems parent i items =
      (numbered i items).flatMap fun m => m.2.leaves (some (childName parent m.1)) := by
  induction items generalizing i with
  | nil => rfl
  | cons v rest ih => rw [leavesOfItems, ih, numbered, List.flatMap_cons]

theorem leavesOfFields_eq (parent : Option Text) (fields : List (Text × Value)) :
    leavesOfFields parent fields =
      fields.flatMap fun m => m.2.leaves (some (childName parent m.1)) := by
  induction fields with
  | nil => rfl
  | cons f rest ih => rw [leavesOfFields, ih, List.flatMap_cons]

theorem leaves_of_isScalar (h : v.isScalar) (parent : Option Text) :
    v.leaves parent = parent.toList.map fun n => (n, v.scalarText) := by
  cases v <;> first | (cases parent <;> rfl) | cases h

theorem leaves_of_not_isScalar (h : ¬v.isScalar) (parent : Option Text) :
    v.leaves parent = v.members.flatMap fun m => m.2.leaves (some (childName parent m.1)) := by
  cases v with
  | list items => exact leavesOfItems_eq parent 0 items
  | object fields => exact leavesOfFields_eq parent fields
  | _ => exact absurd rfl h

/-! ## Dotted paths -/

theorem dotted_cons_cons (a b : Text) (path : List Text) :
    dotted (a :: b :: path) = a ++ '.' :: dotted (b :: path) := by
  simp [dotted, Text.join]

/-- The name of a member and what follows below it. -/
theorem dotted_childName (parent : Option Text) (k : Text) (path : List Text) :
    dotted (childName parent k :: path) = dotted (parent.toList ++ k :: path) := by
  cases parent with
  | none => rfl
  | some n =>
    show dotted ((n ++ '.' :: k) :: path) = dotted (n :: k :: path)
    rw [dotted_cons_cons]
    cases path with
    | nil => simp [dotted, Text.join]
    | cons a rest => simp [dotted_cons_cons]

/-- A dotted path tells its parts if none of them holds a dot. -/
theorem dotted_inj {other : List Text} (hpath : path ≠ []) (hother : other ≠ [])
    (h : ∀ k ∈ path, '.' ∉ k) (h' : ∀ k ∈ other, '.' ∉ k) (heq : dotted path = dotted other) :
    path = other := by
  rw [← List.splitOn_intercalate '.' h hpath, ← List.splitOn_intercalate '.' h' hother]
  exact congrArg (List.splitOn '.') heq

/-- The names that are bound below a parent are the dotted paths from there. -/
theorem leaves_eq (v : Value) (parent : Option Text) :
    v.leaves parent = (v.scalars.filter fun e => parent.toList ++ e.1 ≠ []).map fun e =>
      (dotted (parent.toList ++ e.1), e.2.scalarText) := by
  induction v using members_induction generalizing parent with
  | step v ih =>
    by_cases hv : v.isScalar
    · rw [leaves_of_isScalar hv, scalars_of_isScalar hv]
      cases parent <;> simp [dotted, Text.join]
    · rw [leaves_of_not_isScalar hv, scalars_eq hv, List.filter_flatMap, List.map_flatMap]
      refine List.flatMap_congr fun m hm => ?_
      rw [ih m hm, List.filter_map, List.map_map]
      simp [Function.comp_def, ← dotted_childName]

/-- A name is bound to the text of the last leaf that has it as its dotted path. -/
theorem get?_flatten (v : Value) (name : Text) : v.flatten.get? name =
    ((v.scalars.filter fun e => e.1 ≠ [] ∧ dotted e.1 = name).getLast?).map
      fun e => e.2.scalarText := by
  rw [flatten, Dict.get?_ofList, Dict.lookup_reverse, leaves_eq, List.filter_map,
    List.getLast?_map, Option.map_map, List.filter_filter]
  simp only [Function.comp_def, Option.toList_none, List.nil_append, Bool.decide_and, Bool.and_comm]
  congr!

/-! ## What holds of every object -/

theorem everyObject_iff : v.EveryObject p ↔
    (∀ fields, v = .object fields → p fields) ∧ ∀ m ∈ v.members, m.2.EveryObject p :=
  ⟨fun ⟨own, inside⟩ => ⟨own, inside⟩, fun ⟨own, inside⟩ => ⟨own, inside⟩⟩

theorem everyObject_of_isScalar (h : v.isScalar) : v.EveryObject p := by
  refine everyObject_iff.2 ⟨?_, by simp [members_of_isScalar h]⟩
  rintro fields rfl
  cases h

@[simp] theorem everyObject_null : null.EveryObject p :=
  everyObject_of_isScalar rfl

@[simp] theorem everyObject_bool (b : Bool) : (bool b).EveryObject p :=
  everyObject_of_isScalar rfl

@[simp] theorem everyObject_number (n : Number) : (number n).EveryObject p :=
  everyObject_of_isScalar rfl

@[simp] theorem everyObject_text (t : Text) : (text t).EveryObject p :=
  everyObject_of_isScalar rfl

@[simp] theorem everyObject_list :
    (list items).EveryObject p ↔ ∀ v ∈ items, v.EveryObject p := by
  have hnumbered : ∀ i, (∀ m ∈ numbered i items, m.2.EveryObject p) ↔
      ∀ v ∈ items, v.EveryObject p := by
    induction items with
    | nil => simp [numbered]
    | cons v rest ih => simp only [numbered, List.forall_mem_cons, ih, implies_true]
  simp only [everyObject_iff (v := list items), reduceCtorEq, false_implies, implies_true,
    true_and]
  exact hnumbered 0

@[simp] theorem everyObject_object :
    (object fields).EveryObject p ↔ p fields ∧ ∀ f ∈ fields, f.2.EveryObject p := by
  rw [everyObject_iff]
  simp [members]

/-! ## Names of members -/

theorem ofNat_injective : Function.Injective Text.ofNat := fun m n h => by
  have hdigits : Nat.toDigits 10 m = Nat.toDigits 10 n := h
  rw [← @Nat.ofDigitChars_ten_toDigits m, hdigits, Nat.ofDigitChars_ten_toDigits]

theorem dot_notMem_ofNat (n : Nat) : '.' ∉ Text.ofNat n := fun h => by
  have hdigit : Char.isDigit '.' := Nat.isDigit_of_mem_toDigits (by omega) (by omega) h
  cases hdigit

theorem pairwise_numbered (i : Nat) (items : List Value) :
    (numbered i items).Pairwise fun a b => a.1 ≠ b.1 := by
  induction items generalizing i with
  | nil => exact .nil
  | cons v rest ih =>
    refine List.pairwise_cons.2 ⟨fun b hb heq => ?_, ih (i + 1)⟩
    obtain ⟨-, j, hj, hk⟩ := exists_mem_of_mem_numbered hb
    have hij : i = j := ofNat_injective (heq.trans hk)
    omega

/-- The members of a value in order have different names. -/
theorem Ordered.pairwise_members (h : v.Ordered) : v.members.Pairwise fun a b => a.1 ≠ b.1 := by
  cases v with
  | list items => exact pairwise_numbered 0 items
  | object fields =>
    exact (everyObject_object.1 h).1.imp fun hab heq => by simp [heq] at hab
  | _ => exact .nil

theorem Dotless.dot_notMem (h : v.Dotless) (hmem : (k, c) ∈ v.members) : '.' ∉ k := by
  cases v with
  | list items =>
    obtain ⟨-, j, -, rfl⟩ := exists_mem_of_mem_numbered hmem
    exact dot_notMem_ofNat j
  | object fields => exact (everyObject_object.1 h).1 (k, c) hmem
  | _ => cases hmem

/-! ## Paths of leaves -/

theorem mem_scalars_cons {s : Value} (hv : ¬v.isScalar) :
    (k :: path, s) ∈ v.scalars ↔ ∃ c, (k, c) ∈ v.members ∧ (path, s) ∈ c.scalars := by
  rw [scalars_eq hv]
  simp only [List.mem_flatMap, List.mem_map, Prod.mk.injEq, List.cons.injEq]
  constructor
  · rintro ⟨⟨_, c⟩, hc, ⟨_, _⟩, he, ⟨rfl, rfl⟩, rfl⟩
    exact ⟨c, hc, he⟩
  · rintro ⟨c, hc, he⟩
    exact ⟨(k, c), hc, (path, s), he, ⟨rfl, rfl⟩, rfl⟩

theorem nil_notMem_scalars {s : Value} (hv : ¬v.isScalar) : ([], s) ∉ v.scalars := by
  rw [scalars_eq hv]
  simp

/-- A scalar is a leaf exactly under each path that leads to it. -/
theorem mem_scalars_iff {s : Value} (h : v.Ordered) :
    (path, s) ∈ v.scalars ↔ v.at? path = some s ∧ s.isScalar := by
  induction v using members_induction generalizing path with
  | step v ih =>
    by_cases hv : v.isScalar
    · rw [scalars_of_isScalar hv]
      cases path with
      | nil => grind [at?]
      | cons k path => simp [at?, members_of_isScalar hv]
    · cases path with
      | nil => grind [at?, nil_notMem_scalars]
      | cons k path =>
        have hlookup : ∀ c, v.members.lookup k = some c ↔ (k, c) ∈ v.members := fun c =>
          Dict.lookup_eq_some_iff_mem h.pairwise_members
        have hinside := (everyObject_iff.1 h).2
        simp only [mem_scalars_cons hv, at?, Option.bind_eq_some_iff, hlookup]
        constructor
        · rintro ⟨c, hc, hs⟩
          obtain ⟨hat, hscalar⟩ := (ih (k, c) hc (hinside _ hc)).1 hs
          exact ⟨⟨c, hc, hat⟩, hscalar⟩
        · rintro ⟨⟨c, hc, hat⟩, hscalar⟩
          exact ⟨c, hc, (ih (k, c) hc (hinside _ hc)).2 ⟨hat, hscalar⟩⟩

/-- No path leads to two leaves. -/
theorem nodup_paths (h : v.Ordered) : (v.scalars.map Prod.fst).Nodup := by
  induction v using members_induction with
  | step v ih =>
    by_cases hv : v.isScalar
    · simp [scalars_of_isScalar hv]
    · have hpaths : v.scalars.map Prod.fst =
          v.members.flatMap fun m => (m.2.scalars.map Prod.fst).map (m.1 :: ·) := by
        rw [scalars_eq hv, List.map_flatMap]
        simp [Function.comp_def]
      rw [hpaths]
      refine List.pairwise_flatMap.2 ⟨fun m hm => ?_, h.pairwise_members.imp ?_⟩
      · exact (ih m hm ((everyObject_iff.1 h).2 m hm)).map (List.cons_injective)
      · intro a b hab
        simp only [List.mem_map]
        rintro _ ⟨_, -, rfl⟩ _ ⟨_, -, rfl⟩ heq
        exact hab (List.cons.inj heq).1

theorem Dotless.dot_notMem_of_mem_scalars {s : Value} (h : v.Dotless)
    (hs : (path, s) ∈ v.scalars) : ∀ k ∈ path, '.' ∉ k := by
  induction v using members_induction generalizing path with
  | step v ih =>
    by_cases hv : v.isScalar
    · rw [scalars_of_isScalar hv, List.mem_singleton] at hs
      cases hs
      simp
    · cases path with
      | nil => simp
      | cons k path =>
        obtain ⟨c, hc, hs⟩ := (mem_scalars_cons hv).1 hs
        exact List.forall_mem_cons.2
          ⟨h.dot_notMem hc, ih (k, c) hc ((everyObject_iff.1 h).2 _ hc) hs⟩

/-- Where no key holds a dot, different leaves have different dotted paths. -/
theorem nodup_dotted (ho : v.Ordered) (hv : ¬v.isScalar) (hd : v.Dotless) :
    (v.scalars.map fun e => dotted e.1).Nodup := by
  have hnonempty : ∀ e ∈ v.scalars, e.1 ≠ [] := by
    rintro ⟨path, s⟩ he rfl
    exact nil_notMem_scalars hv he
  have hmap : (v.scalars.map fun e => dotted e.1) = (v.scalars.map Prod.fst).map dotted := by
    simp [Function.comp_def]
  rw [hmap]
  refine List.Nodup.map_on ?_ (nodup_paths ho)
  simp only [List.mem_map]
  rintro _ ⟨a, ha, rfl⟩ _ ⟨b, hb, rfl⟩ heq
  exact dotted_inj (hnonempty a ha) (hnonempty b hb) (hd.dot_notMem_of_mem_scalars ha)
    (hd.dot_notMem_of_mem_scalars hb) heq

theorem leaves_none (hv : ¬v.isScalar) :
    v.leaves none = v.scalars.map fun e => (dotted e.1, e.2.scalarText) := by
  rw [leaves_eq, List.filter_eq_self.2]
  · rfl
  · rintro ⟨path, s⟩ he
    have hpath : path ≠ [] := fun hnil => nil_notMem_scalars hv (hnil ▸ he)
    exact decide_eq_true hpath

/-- Where no key holds a dot, there is one name for each leaf. -/
theorem perm_flatten (ho : v.Ordered) (hv : ¬v.isScalar) (hd : v.Dotless) :
    v.flatten.toList.Perm (v.scalars.map fun e => (dotted e.1, e.2.scalarText)) := by
  rw [flatten, leaves_none hv]
  refine Dict.perm_toList_ofList ?_
  have hnodup := nodup_dotted ho hv hd
  rw [List.pairwise_map]
  exact List.pairwise_map.1 hnodup

/-- Flat names keep every leaf. A name is bound to the text of the last leaf that has it as its
dotted path, and is not bound if there is none. In a value whose fields are in order, the leaves
are what the paths lead to ; and if it is a list or an object without a dot in a key, each
leaf has a name for itself, under which its text is found. -/
theorem flatten_leaves (v : Value) :
    (∀ name, v.flatten.get? name =
      ((v.scalars.filter fun e => e.1 ≠ [] ∧ dotted e.1 = name).getLast?).map
        fun e => e.2.scalarText) ∧
    (v.Ordered → ∀ path s, (path, s) ∈ v.scalars ↔ v.at? path = some s ∧ s.isScalar) ∧
    (v.Ordered → ¬v.isScalar → v.Dotless →
      (v.scalars.map fun e => dotted e.1).Nodup ∧ v.flatten.size = v.scalars.length ∧
      ∀ path s, v.at? path = some s → s.isScalar →
        v.flatten.get? (dotted path) = some s.scalarText) := by
  refine ⟨get?_flatten v, fun ho path s => mem_scalars_iff ho, fun ho hv hd => ?_⟩
  have hperm := perm_flatten ho hv hd
  refine ⟨nodup_dotted ho hv hd, ?_, fun path s hat hs => ?_⟩
  · have hlength := hperm.length_eq
    rwa [List.length_map] at hlength
  · rw [Dict.get?_eq_some_iff, hperm.mem_iff]
    exact List.mem_map_of_mem ((mem_scalars_iff ho).2 ⟨hat, hs⟩)

/-- Empty keys inside one another, and a list. -/
def nested : Value :=
  .object [([], .object [([], .text ['x'])]), (['l'], .list [.null, .number (.int 7)])]

theorem flatten_leaves_nested :
    nested.Ordered ∧ ¬nested.isScalar ∧ nested.Dotless ∧ nested.flatten.size = 3 ∧
      nested.flatten.get? ['.'] = some ['x'] ∧ nested.flatten.get? "l.1".toList = some ['7'] := by
  have ho : nested.Ordered := by
    simp [nested, Ordered, Text.isBefore]
  have hd : nested.Dotless := by
    simp [nested, Dotless, or_imp, forall_and]
  have hv : ¬nested.isScalar := by decide
  obtain ⟨-, -, hleaves⟩ := flatten_leaves nested
  obtain ⟨-, hsize, hat⟩ := hleaves ho hv hd
  exact ⟨ho, hv, hd, hsize, hat [[], []] (.text ['x']) (by cbv) (by decide),
    hat [['l'], ['1']] (.number (.int 7)) (by cbv) (by decide)⟩

end Value

end Folio
