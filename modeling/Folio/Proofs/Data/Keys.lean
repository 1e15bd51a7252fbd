import Mathlib
import Folio.Proofs.Data.Leaves
import Folio.Proofs.Data.Names

/-!
# Keys of documents

The keys of the objects that a document gives are the spellings of its names, and not the
names (`Kdl.lookup_toValue`). A document whose names are spelled as they are has the names
for its keys. `Kdl.Node.decoded` spells all names of a document so.

In a document that was read, the longest spelling of a name in quotes is itself the value of
no name. `Kdl.keys_decoded_iff` : such a document gives what it gives with its names decoded
exactly if the names of all keys are plain, which are the names of all nodes at a level, and
those inside the nodes that are not followed by others of the same name (`Kdl.KeysPlain`).
`Kdl.quoted_key` is a document that binds a name with its quotes.
-/

namespace Folio

/-! ## Objects made of fields -/

namespace Dict

variable {α : Type} {d e : Dict α}

/-- Dictionaries that bind all names alike are the same. -/
theorem eq_of_get? (h : ∀ x, d.get? x = e.get? x) : d = e := by
  have : Std.Irrefl fun a b : Text × α => a.1.isBefore b.1 = true := ⟨by simp⟩
  have : Std.Antisymm fun a b : Text × α => a.1.isBefore b.1 = true := by
    refine ⟨fun a b hab hba => ?_⟩
    have hself := Text.isBefore_trans hab hba
    rw [Text.isBefore_self] at hself
    cases hself
  refine Dict.ext (d.ordered.eq_of_mem_iff e.ordered ?_)
  rintro ⟨x, v⟩
  have hmem := get?_eq_some_iff (d := d) (x := x) (v := v)
  rw [h x, get?_eq_some_iff] at hmem
  exact hmem.symm

/-- No pair is found if none has the name. -/
theorem lookup_reverse_map_eq_none_iff {β : Type} {f : β → Text × α} {l : List β} {x : Text} :
    (l.map f).reverse.lookup x = none ↔ ∀ b ∈ l, (f b).1 ≠ x := by
  rw [List.lookup_eq_none_iff]
  simp only [List.mem_reverse, List.mem_map, forall_exists_index, and_imp,
    forall_apply_eq_imp_iff₂, bne_iff_ne, ne_comm]

/-- The first of the pairs gives its name only what no later one gives it. -/
theorem lookup_reverse_map_cons {β : Type} (f : β → Text × α) (b : β) (l : List β) (x : Text) :
    ((b :: l).map f).reverse.lookup x =
      ((l.map f).reverse.lookup x).or (if x = (f b).1 then some (f b).2 else none) := by
  rw [List.map_cons, List.reverse_cons, List.lookup_append, lookup_pair_cons]
  rfl

end Dict

namespace Value

theorem ofFields_eq (fields : List (Text × Value)) :
    ofFields fields = .object (Dict.ofList fields).entries := by
  have hentries : ∀ d : Dict Value,
      fields.foldl (fun l e => insertEntry e.1 e.2 l) d.entries = (d.extend fields).entries := by
    induction fields with
    | nil => exact fun _ => rfl
    | cons e rest ih => exact fun d => ih (d.insert e.1 e.2)
  exact congrArg Value.object (hentries .empty)

/-- Fields give the same object if the last ones of each name are the same. -/
theorem ofFields_eq_iff {fields others : List (Text × Value)} : ofFields fields = ofFields others ↔
    ∀ k, fields.reverse.lookup k = others.reverse.lookup k := by
  rw [ofFields_eq, ofFields_eq, object.injEq]
  simp only [← Dict.get?_ofList]
  constructor
  · intro h k
    rw [Dict.get?, Dict.get?, h]
  · exact fun h => congrArg Dict.entries (Dict.eq_of_get? h)

end Value

namespace Kdl

/-! ## Names decoded -/

/-- The name, spelled as it is. -/
def Name.decoded (n : Name) : Name :=
  ⟨n.value, n.value⟩

/-- The entry with its name decoded. -/
def NodeEntry.decoded (e : NodeEntry) : NodeEntry :=
  ⟨e.name.map Name.decoded, e.value⟩

/-- The name of a node. -/
def Node.name : Node → Name
  | .mk name _ _ => name

mutual

/-- The node with all names in it decoded. -/
def Node.decoded : Node → Node
  | .mk name entries none => .mk name.decoded (entries.map NodeEntry.decoded) none
  | .mk name entries (some children) =>
    .mk name.decoded (entries.map NodeEntry.decoded) (some (Node.decodedAll children))

/-- Nodes with all names in them decoded. -/
def Node.decodedAll : List Node → List Node
  | [] => []
  | n :: rest => n.decoded :: Node.decodedAll rest

end

mutual

/-- Whether all names in a node that become keys are plain. Children take the place of all
entries, and entries that have not all a name have no keys. -/
def Node.KeysPlain : Node → Prop
  | .mk _ _ (some children) => Node.AllKeysPlain children
  | .mk _ entries none =>
    (∀ e ∈ entries, e.name.isSome) → ∀ e ∈ entries, ∀ n ∈ e.name, n.IsPlain

/-- Whether all names of nodes are plain, and all names in a node that become keys, unless
another node of the same spelling follows. -/
def Node.AllKeysPlain : List Node → Prop
  | [] => True
  | n :: rest => n.name.IsPlain ∧
    ((∀ m ∈ rest, m.name.spelling ≠ n.name.spelling) → n.KeysPlain) ∧ Node.AllKeysPlain rest

end

/-- Whether all names in a document that become keys are plain. -/
def KeysPlain (ns : List Node) : Prop :=
  Node.AllKeysPlain ns

/-! ## Values under names -/

/-- Whether all names in a list are plain, and the two values under a name are the same
unless the name comes again. -/
def Agree : List (Name × Value × Value) → Prop
  | [] => True
  | (n, a, b) :: rest =>
    n.IsPlain ∧ ((∀ m ∈ rest, m.1.spelling ≠ n.spelling) → a = b) ∧ Agree rest

/-- The first value under each spelling. -/
def spelled (l : List (Name × Value × Value)) : List (Text × Value) :=
  l.map fun x => (x.1.spelling, x.2.1)

/-- The second value under each name. -/
def named (l : List (Name × Value × Value)) : List (Text × Value) :=
  l.map fun x => (x.1.value, x.2.2)

variable {l rest : List (Name × Value × Value)} {n : Name} {a b : Value} {k : Text}

theorem lookup_spelled_cons (n : Name) (a b : Value) (rest : List (Name × Value × Value))
    (k : Text) : (spelled ((n, a, b) :: rest)).reverse.lookup k =
      ((spelled rest).reverse.lookup k).or (if k = n.spelling then some a else none) :=
  Dict.lookup_reverse_map_cons _ _ _ _

theorem lookup_named_cons (n : Name) (a b : Value) (rest : List (Name × Value × Value))
    (k : Text) : (named ((n, a, b) :: rest)).reverse.lookup k =
      ((named rest).reverse.lookup k).or (if k = n.value then some b else none) :=
  Dict.lookup_reverse_map_cons _ _ _ _

theorem lookup_spelled_eq_none_iff :
    (spelled l).reverse.lookup k = none ↔ ∀ x ∈ l, x.1.spelling ≠ k :=
  Dict.lookup_reverse_map_eq_none_iff

theorem lookup_named_eq_none_iff :
    (named l).reverse.lookup k = none ↔ ∀ x ∈ l, x.1.value ≠ k :=
  Dict.lookup_reverse_map_eq_none_iff

/-- A plain name comes in a list of plain ones when its spelling does. -/
theorem lookup_named_eq_none_iff_spelled (hplain : ∀ x ∈ l, x.1.IsPlain) :
    (named l).reverse.lookup k = none ↔ (spelled l).reverse.lookup k = none := by
  rw [lookup_named_eq_none_iff, lookup_spelled_eq_none_iff]
  refine forall₂_congr fun x hx => ?_
  rw [hplain x hx]

theorem Agree.isPlain (h : Agree l) : ∀ x ∈ l, x.1.IsPlain := by
  induction l with
  | nil => exact nofun
  | cons x rest ih =>
    obtain ⟨n, a, b⟩ := x
    exact List.forall_mem_cons.2 ⟨h.1, ih h.2.2⟩

/-- Where all names are plain, lists agree when the last values of each name do. -/
theorem agree_iff_lookup (hplain : ∀ x ∈ l, x.1.IsPlain) : Agree l ↔
    ∀ k, (spelled l).reverse.lookup k = (named l).reverse.lookup k := by
  induction l with
  | nil => exact iff_of_true trivial fun _ => rfl
  | cons x rest ih =>
    obtain ⟨n, a, b⟩ := x
    obtain ⟨hn, hrest⟩ := List.forall_mem_cons.1 hplain
    have hnone : ∀ k, (named rest).reverse.lookup k = none ↔
        (spelled rest).reverse.lookup k = none := fun k => lookup_named_eq_none_iff_spelled hrest
    have hspelling : n.spelling = n.value := hn
    have hlast : (∀ m ∈ rest, m.1.spelling ≠ n.value) ↔
        (spelled rest).reverse.lookup n.value = none := lookup_spelled_eq_none_iff.symm
    simp only [Agree, ih hrest, lookup_spelled_cons, lookup_named_cons, hspelling, hlast,
      and_iff_right hn]
    constructor
    · rintro ⟨hsame, hall⟩ k
      rw [hall k]
      by_cases hk : k = n.value
      · rw [if_pos hk, if_pos hk]
        cases hlookup : (named rest).reverse.lookup k with
        | some v => rfl
        | none =>
          rw [hsame (hk ▸ (hnone k).1 hlookup)]
      · rw [if_neg hk, if_neg hk]
    · intro hall
      refine ⟨fun hlookup => ?_, fun k => ?_⟩
      · have hself := hall n.value
        rw [hlookup, (hnone _).2 hlookup, if_pos rfl, if_pos rfl] at hself
        exact Option.some.inj hself
      · cases hlookup : (spelled rest).reverse.lookup k with
        | none => exact ((hnone k).2 hlookup).symm
        | some v =>
          obtain ⟨w, hw⟩ := Option.ne_none_iff_exists'.1 fun h =>
            Option.some_ne_none v (hlookup.symm.trans ((hnone k).1 h))
          have hk := hall k
          rw [hlookup, hw] at hk
          rw [hw]
          exact hk

theorem agree_iff_isPlain (h : ∀ x ∈ l, x.2.1 = x.2.2) : Agree l ↔ ∀ x ∈ l, x.1.IsPlain := by
  refine ⟨Agree.isPlain, fun hplain => ?_⟩
  induction l with
  | nil => trivial
  | cons x rest ih =>
    obtain ⟨n, a, b⟩ := x
    rw [List.forall_mem_cons] at h hplain
    exact ⟨hplain.1, fun _ => h.1, ih h.2 hplain.2⟩

/-- A name in quotes is nobody's spelling decoded, so it is not the longest one. -/
theorem exists_longer (hspelled : ∀ x ∈ l, x.1.WellSpelled)
    (hkeys : ∀ k, (∃ x ∈ l, x.1.spelling = k) → ∃ x ∈ l, x.1.value = k) {x : Name × Value × Value}
    (hx : x ∈ l) (hquoted : ¬x.1.IsPlain) :
    ∃ y ∈ l, ¬y.1.IsPlain ∧ x.1.spelling.length < y.1.spelling.length := by
  obtain ⟨y, hy, hvalue⟩ := hkeys x.1.spelling ⟨x, hx, rfl⟩
  have hmarked : IsMarked x.1.spelling :=
    Classical.not_not.1 fun h => hquoted ((hspelled x hx).isPlain_iff.2 h)
  have hyquoted : ¬y.1.IsPlain := by
    intro hplain
    refine (hspelled y hy).isPlain_iff.1 hplain ?_
    rwa [hplain, hvalue]
  have hlonger := (hspelled y hy).length_lt hyquoted
  rw [hvalue] at hlonger
  exact ⟨y, hy, hyquoted, hlonger⟩

/-- If the names of a list are its spellings, all of them are plain. -/
theorem isPlain_of_keys (hspelled : ∀ x ∈ l, x.1.WellSpelled)
    (hkeys : ∀ k, (∃ x ∈ l, x.1.spelling = k) → ∃ x ∈ l, x.1.value = k) :
    ∀ x ∈ l, x.1.IsPlain := by
  intro x hx
  refine Classical.byContradiction fun hquoted => ?_
  -- There would be ever longer spellings.
  have hlong : ∀ length, ∃ y ∈ l, ¬y.1.IsPlain ∧ length ≤ y.1.spelling.length := by
    intro length
    induction length with
    | zero => exact ⟨x, hx, hquoted, Nat.zero_le _⟩
    | succ length ih =>
      obtain ⟨y, hy, hyquoted, hle⟩ := ih
      obtain ⟨z, hz, hzquoted, hlt⟩ := exists_longer hspelled hkeys hy hyquoted
      exact ⟨z, hz, hzquoted, Nat.lt_of_le_of_lt hle hlt⟩
  obtain ⟨y, hy, -, hle⟩ := hlong ((l.map fun x => x.1.spelling.length).sum + 1)
  have hsum : y.1.spelling.length ≤ (l.map fun x => x.1.spelling.length).sum :=
    List.le_sum_of_mem (List.mem_map_of_mem hy)
  omega

/-- Objects of well spelled names are the same with the names decoded exactly if the values
agree. -/
theorem ofFields_eq_iff_agree (hspelled : ∀ x ∈ l, x.1.WellSpelled) :
    Value.ofFields (spelled l) = Value.ofFields (named l) ↔ Agree l := by
  rw [Value.ofFields_eq_iff]
  constructor
  · intro h
    refine (agree_iff_lookup (isPlain_of_keys hspelled fun k hk => ?_)).2 h
    refine Classical.byContradiction fun hnone => ?_
    have hnamed : (named l).reverse.lookup k = none :=
      lookup_named_eq_none_iff.2 fun y hy heq => hnone ⟨y, hy, heq⟩
    rw [← h k, lookup_spelled_eq_none_iff] at hnamed
    obtain ⟨x, hx, hspelling⟩ := hk
    exact hnamed x hx hspelling
  · exact fun h => (agree_iff_lookup h.isPlain).1 h

/-! ## Entries -/

variable {entries : List NodeEntry}

/-- How an entry becomes a field, if it has a name. -/
def NodeEntry.field? (e : NodeEntry) : Option (Text × Value) :=
  e.name.map fun n => (n.spelling, e.value.toValue)

theorem valueOfEntries_eq (hsingle : ∀ v, entries ≠ [⟨none, v⟩]) (hne : entries ≠ []) :
    valueOfEntries entries = match entries.mapM NodeEntry.field? with
      | some fields => .ofFields fields
      | none => .list (entries.map fun e => e.value.toValue) := by
  unfold valueOfEntries
  split
  · exact absurd rfl hne
  · exact absurd rfl (hsingle _)
  · rfl

/-- An entry without a name is no field, and without fields for all entries there is no
object. -/
theorem mapM_field?_eq_none (h : ∃ e ∈ entries, e.name = none) :
    entries.mapM NodeEntry.field? = none := by
  induction entries with
  | nil => exact absurd h (by simp)
  | cons e rest ih =>
    rw [List.mapM_cons]
    cases he : e.field? with
    | none => rfl
    | some v =>
      obtain ⟨e', hmem, hname⟩ := h
      have hrest : rest.mapM NodeEntry.field? = none := by
        refine ih ⟨e', (List.mem_cons.1 hmem).resolve_left ?_, hname⟩
        rintro rfl
        rw [NodeEntry.field?, hname] at he
        cases he
      rw [hrest]
      rfl

/-- Entries with the given names and values. -/
def properties (l : List (Name × Scalar)) : List NodeEntry :=
  l.map fun x => ⟨some x.1, x.2⟩

theorem forall_properties {l : List (Name × Scalar)} {p : Name → Prop} :
    (∀ e ∈ properties l, ∀ n ∈ e.name, p n) ↔ ∀ x ∈ l, p x.1 := by
  rw [properties, List.forall_mem_map]
  simp

theorem decoded_properties (l : List (Name × Scalar)) : (properties l).map NodeEntry.decoded =
    properties (l.map fun x => (x.1.decoded, x.2)) := by
  rw [properties, properties, List.map_map, List.map_map]
  rfl

theorem mapM_properties (l : List (Name × Scalar)) : (properties l).mapM NodeEntry.field? =
    some (l.map fun x => (x.1.spelling, x.2.toValue)) := by
  induction l with
  | nil => rfl
  | cons x rest ih =>
    rw [properties, List.map_cons, List.mapM_cons, ← properties, ih]
    rfl

/-- Entries that have all a name are fields. -/
theorem valueOfEntries_properties {l : List (Name × Scalar)} (hne : l ≠ []) :
    valueOfEntries (properties l) = .ofFields (l.map fun x => (x.1.spelling, x.2.toValue)) := by
  rw [valueOfEntries_eq, mapM_properties]
  · intro v hv
    cases l with
    | nil => exact hne rfl
    | cons x rest => cases hv
  · exact List.map_eq_nil_iff.not.2 hne

/-- The names of entries that have not all a name play no part. -/
theorem valueOfEntries_decoded_of_unnamed (h : ∃ e ∈ entries, e.name = none) :
    valueOfEntries (entries.map NodeEntry.decoded) = valueOfEntries entries := by
  have hdecoded : ∃ e ∈ entries.map NodeEntry.decoded, e.name = none := by
    obtain ⟨e, he, hname⟩ := h
    exact ⟨e.decoded, List.mem_map_of_mem he, congrArg (Option.map Name.decoded) hname⟩
  rcases entries with _ | ⟨e, _ | ⟨e', rest⟩⟩
  · rfl
  · obtain ⟨e₀, he₀, hname⟩ := h
    obtain rfl := List.mem_singleton.1 he₀
    obtain ⟨name, value⟩ := e₀
    obtain rfl : name = none := hname
    rfl
  · rw [valueOfEntries_eq (by simp) (by simp), valueOfEntries_eq (by simp) (by simp),
      mapM_field?_eq_none h, mapM_field?_eq_none hdecoded, List.map_map]
    rfl

theorem exists_properties (h : ∀ e ∈ entries, e.name.isSome) :
    ∃ l, entries = properties l := by
  induction entries with
  | nil => exact ⟨[], rfl⟩
  | cons e rest ih =>
    obtain ⟨he, hrest⟩ := List.forall_mem_cons.1 h
    obtain ⟨l, rfl⟩ := ih hrest
    obtain ⟨name, value⟩ := e
    obtain ⟨n, rfl⟩ := Option.isSome_iff_exists.1 he
    exact ⟨(n, value) :: l, rfl⟩

theorem valueOfEntries_properties_decoded_iff {l : List (Name × Scalar)}
    (hspelled : ∀ x ∈ l, x.1.WellSpelled) :
    valueOfEntries (properties l) = valueOfEntries ((properties l).map NodeEntry.decoded) ↔
      ∀ x ∈ l, x.1.IsPlain := by
  by_cases hne : l = []
  · subst hne
    exact iff_of_true rfl nofun
  · let both := l.map fun x => (x.1, x.2.toValue, x.2.toValue)
    have hboth : ∀ p : Name → Prop, (∀ y ∈ both, p y.1) ↔ ∀ x ∈ l, p x.1 := fun p =>
      List.forall_mem_map
    have hspelling : valueOfEntries (properties l) = .ofFields (spelled both) := by
      rw [valueOfEntries_properties hne, spelled, List.map_map]
      rfl
    have hdecoded : valueOfEntries ((properties l).map NodeEntry.decoded) =
        .ofFields (named both) := by
      rw [decoded_properties, valueOfEntries_properties (List.map_eq_nil_iff.not.2 hne), named,
        List.map_map, List.map_map]
      rfl
    rw [hspelling, hdecoded, ofFields_eq_iff_agree ((hboth Name.WellSpelled).2 hspelled),
      agree_iff_isPlain (List.forall_mem_map.2 fun _ _ => rfl), hboth]

/-- Entries give what they give decoded exactly if all their names are plain, or some have
none. -/
theorem valueOfEntries_decoded_iff (hspelled : ∀ e ∈ entries, ∀ n ∈ e.name, n.WellSpelled) :
    valueOfEntries entries = valueOfEntries (entries.map NodeEntry.decoded) ↔
      ((∀ e ∈ entries, e.name.isSome) → ∀ e ∈ entries, ∀ n ∈ e.name, n.IsPlain) := by
  by_cases hall : ∀ e ∈ entries, e.name.isSome
  · obtain ⟨l, rfl⟩ := exists_properties hall
    rw [forall_prop_of_true hall, forall_properties]
    exact valueOfEntries_properties_decoded_iff (forall_properties.1 hspelled)
  · refine iff_of_true ?_ fun h => absurd h hall
    refine (valueOfEntries_decoded_of_unnamed ?_).symm
    simpa using hall

/-! ## Nodes -/

theorem fields_eq (ns : List Node) :
    Node.fields ns = ns.map fun n => (n.name.spelling, n.toValue) := by
  induction ns with
  | nil => rfl
  | cons n rest ih =>
    obtain ⟨name, entries, children⟩ := n
    rw [Node.fields, ih]
    rfl

theorem fields_decodedAll (ns : List Node) :
    Node.fields (Node.decodedAll ns) = ns.map fun n => (n.name.value, n.decoded.toValue) := by
  induction ns with
  | nil => rfl
  | cons n rest ih =>
    rw [Node.decodedAll, fields_eq, List.map_cons, ← fields_eq, ih, List.map_cons]
    obtain ⟨name, entries, children⟩ := n
    cases children <;> rfl

/-- Nodes under their names, each with its value and the value of it decoded. -/
def compared (ns : List Node) : List (Name × Value × Value) :=
  ns.map fun n => (n.name, n.toValue, n.decoded.toValue)

theorem spelled_compared (ns : List Node) : spelled (compared ns) = Node.fields ns := by
  rw [fields_eq, spelled, compared, List.map_map]
  rfl

theorem named_compared (ns : List Node) :
    named (compared ns) = Node.fields (Node.decodedAll ns) := by
  rw [fields_decodedAll, named, compared, List.map_map]
  rfl

theorem Node.WellSpelled.name {n : Node} (h : n.WellSpelled) : n.name.WellSpelled := by
  cases h with
  | mk own _ _ => exact own

/-- The fields of nodes make one object with and without the names decoded exactly if the
nodes agree with what they are decoded. -/
theorem ofFields_fields_decodedAll_iff {ns : List Node} (h : ∀ n ∈ ns, n.WellSpelled) :
    Value.ofFields (Node.fields ns) = Value.ofFields (Node.fields (Node.decodedAll ns)) ↔
      Agree (compared ns) := by
  rw [← spelled_compared, ← named_compared]
  refine ofFields_eq_iff_agree ?_
  rw [compared, List.forall_mem_map]
  exact fun n hn => (h n hn).name

mutual

/-- A node gives what it gives decoded exactly if the names in it that become keys are
plain. -/
theorem Node.toValue_decoded_iff :
    ∀ n : Node, n.WellSpelled → (n.toValue = n.decoded.toValue ↔ n.KeysPlain)
  | .mk name entries (some children), h => by
    cases h with
    | mk _ _ inside =>
      have hchildren := inside children rfl
      rw [Node.toValue, Node.decoded, Node.toValue, Node.KeysPlain,
        ← agree_compared_iff children hchildren]
      exact ofFields_fields_decodedAll_iff hchildren
  | .mk name entries none, h => by
    cases h with
    | mk _ properties _ => exact valueOfEntries_decoded_iff properties

/-- Nodes agree with what they are decoded exactly if the names that become keys are
plain. -/
theorem agree_compared_iff :
    ∀ ns : List Node, (∀ n ∈ ns, n.WellSpelled) → (Agree (compared ns) ↔ Node.AllKeysPlain ns)
  | [], _ => Iff.rfl
  | n :: rest, h => by
    obtain ⟨hn, hrest⟩ := List.forall_mem_cons.1 h
    rw [compared, List.map_cons, Agree, Node.AllKeysPlain, ← compared,
      Node.toValue_decoded_iff n hn, agree_compared_iff rest hrest]
    simp only [compared, List.forall_mem_map]

end

/-! ## Documents -/

theorem toValue_decodedAll_iff {ns : List Node} (h : ∀ n ∈ ns, n.WellSpelled) :
    toValue ns = toValue (Node.decodedAll ns) ↔ KeysPlain ns := by
  rw [toValue, toValue, KeysPlain, ← agree_compared_iff ns h]
  exact ofFields_fields_decodedAll_iff h

/-- A key is the spelling of a name, and gives the last node that is spelled so. -/
theorem lookup_toValue (ns : List Node) (k : Text) : (toValue ns).members.lookup k =
    ((ns.filter fun n => n.name.spelling = k).getLast?).map Node.toValue := by
  rw [toValue, Value.ofFields_eq]
  show (Dict.ofList (Node.fields ns)).get? k = _
  rw [Dict.get?_ofList, Dict.lookup_reverse, fields_eq, List.filter_map, List.getLast?_map,
    Option.map_map]
  rfl

/-- The keys of a document that was read are the spellings of its names, at the top and
in every block of children. So it gives what it gives with its names decoded exactly if all
names that become keys are plain ; and two documents of which this holds, and which differ
only in the spelling of names, bind the same. -/
theorem keys_decoded_iff {t : Text} {ns : List Node} (h : read? t = some ns) :
    (∀ k, (toValue ns).members.lookup k =
      ((ns.filter fun n => n.name.spelling = k).getLast?).map Node.toValue) ∧
    (∀ name entries children, Node.toValue (.mk name entries (some children)) =
      toValue children) ∧
    (toValue ns = toValue (Node.decodedAll ns) ↔ KeysPlain ns) ∧
    ∀ t' ns', read? t' = some ns' → Node.decodedAll ns' = Node.decodedAll ns →
      KeysPlain ns → KeysPlain ns' → (toValue ns').flatten = (toValue ns).flatten := by
  have hkeys := toValue_decodedAll_iff (wellSpelled_of_read? h)
  refine ⟨lookup_toValue ns, fun _ _ _ => rfl, hkeys, fun t' ns' h' hsame hplain hplain' => ?_⟩
  have hkeys' := toValue_decodedAll_iff (wellSpelled_of_read? h')
  rw [hkeys.2 hplain, hkeys'.2 hplain', hsame]

/-- A node with an argument besides a property, whose name is in quotes. -/
def mixed : Node :=
  .mk ⟨['a'], ['a']⟩ [⟨some ⟨['p'], "\"p\"".toList⟩, .text ['x']⟩, ⟨none, .text ['y']⟩] none

/-- A name in quotes does no harm where it is no key. -/
theorem keys_decoded_iff_mixed : read? "a \"p\"=\"x\" \"y\"".toList = some [mixed] ∧
    KeysPlain [mixed] ∧ toValue [mixed] = toValue (Node.decodedAll [mixed]) := by
  have h : read? "a \"p\"=\"x\" \"y\"".toList = some [mixed] := by cbv
  have hplain : KeysPlain [mixed] := by
    refine ⟨rfl, fun _ hnamed => ?_, trivial⟩
    have hnone := hnamed ⟨none, .text ['y']⟩ (by simp)
    cases hnone
  obtain ⟨-, -, hkeys, -⟩ := keys_decoded_iff h
  exact ⟨h, hplain, hkeys.2 hplain⟩

/-- A name in quotes is bound with its quotes. -/
theorem quoted_key : ∃ ns, read? "\"site title\" \"x\"\n".toList = some ns ∧
    (toValue ns).flatten.get? "site title".toList = none ∧
    (toValue ns).flatten.get? "\"site title\"".toList = some ['x'] ∧
    (toValue (Node.decodedAll ns)).flatten.get? "site title".toList = some ['x'] := by
  refine ⟨[.mk ⟨"site title".toList, "\"site title\"".toList⟩ [⟨none, .text ['x']⟩] none],
    by cbv, by cbv, by cbv, by cbv⟩

end Kdl

end Folio
