import Mathlib.Data.List.Pairwise
import Mathlib.Data.List.Sort
import Folio.Proofs.Statement.Places
import Folio.Proofs.Text.Utf8

/-!
# The grammar of statements

Where statements stand in a text is said without any scanning : `Spanned` is what a list
of byte ranges has to meet, each range for itself, any two of them, and every opening
outside of all ranges.

`spans_eq_iff` : the ranges of the statements that `scan` finds are the one list that
meets it. That they do is shown item by item (`spanned_of_settled`). That no other list
does needs no order of scanning : a range of one list begins inside a range of any other
list (`Spanned.exists_holds`), and the first range that only one of them had would
overlap with a range before it (`Spanned.mem_of_earlier`).
-/

namespace Folio

/-- A range of bytes, from `start` up to but not including `stop`. -/
structure Span where
  start : Nat
  stop : Nat
deriving DecidableEq

/-- The bytes of a statement. -/
def Statement.span (s : Statement) : Span :=
  ⟨s.start, s.stop⟩

namespace Span

/-- Whether a byte lies in a range. -/
def Holds (x : Span) (i : Nat) : Prop :=
  x.start ≤ i ∧ i < x.stop

/-- The range that lies `n` bytes further on. -/
def shift (n : Nat) (x : Span) : Span :=
  ⟨n + x.start, n + x.stop⟩

end Span

/-- Whether `$<` stands at a byte. -/
def OpensAt (b : List UInt8) (i : Nat) : Prop :=
  b[i]? = some '$'.toUInt8 ∧ b[i + 1]? = some '<'.toUInt8

/-- Whether `>$` stands at a byte. -/
def ClosesAt (b : List UInt8) (i : Nat) : Prop :=
  b[i]? = some '>'.toUInt8 ∧ b[i + 1]? = some '$'.toUInt8

/-- Whether no line ends from byte `i` up to but not including byte `j`. -/
def OneLine (b : List UInt8) (i j : Nat) : Prop :=
  ∀ k, i ≤ k → k < j → b[k]? ≠ some '\n'.toUInt8

/-- Whether the ranges are where the statements of a text with the bytes `b` stand. -/
structure Spanned (b : List UInt8) (spans : List Span) : Prop where
  /-- The ranges follow one another. -/
  ordered : spans.Pairwise fun x y => x.stop ≤ y.start
  /-- There is room for both delimiters. -/
  long : ∀ x ∈ spans, x.start + 4 ≤ x.stop
  opens : ∀ x ∈ spans, OpensAt b x.start
  closes : ∀ x ∈ spans, ClosesAt b (x.stop - 2)
  oneLine : ∀ x ∈ spans, OneLine b x.start x.stop
  /-- Between its delimiters a range has no close. -/
  body : ∀ x ∈ spans, ∀ i, x.start + 2 ≤ i → i + 2 ≤ x.stop - 2 → ¬ClosesAt b i
  /-- An opening outside of all ranges has no close on its line. -/
  outside : ∀ i, OpensAt b i → (∀ x ∈ spans, ¬x.Holds i) →
    ∀ j, i + 2 ≤ j → ClosesAt b j → ¬OneLine b (i + 2) j

/-! ## No second list of ranges -/

namespace Spanned

variable {b : List UInt8} {spans others : List Span} {x y : Span}

/-- Of two ranges of one list, the one that begins first ends before the other begins. -/
theorem stop_le_start (h : Spanned b spans) (hx : x ∈ spans) (hy : y ∈ spans)
    (hlt : x.start < y.start) : x.stop ≤ y.start := by
  have hapart : spans.Pairwise fun x y => x.stop ≤ y.start ∨ y.stop ≤ x.start :=
    h.ordered.imp Or.inl
  have hsymm : Std.Symm fun x y : Span => x.stop ≤ y.start ∨ y.stop ≤ x.start :=
    ⟨fun _ _ => Or.symm⟩
  have hne : x ≠ y := by
    rintro rfl
    exact Nat.lt_irrefl _ hlt
  rcases hapart.forall hx hy hne with hle | hle
  · exact hle
  · have := h.long y hy
    omega

/-- A range ends at the nearest close, so its start says where it ends. -/
theorem stop_le_stop (hx : Spanned b spans) (hy : Spanned b others) (hxs : x ∈ spans)
    (hys : y ∈ others) (hstart : x.start = y.start) : x.stop ≤ y.stop := by
  refine Nat.not_lt.1 fun hlt => ?_
  have hlong := hy.long y hys
  have hclose := hy.closes y hys
  by_cases hroom : y.stop - 2 + 2 ≤ x.stop - 2
  · exact hx.body x hxs (y.stop - 2) (by omega) hroom hclose
  · -- The two closes would share a byte, which cannot be `$` and `>`.
    have hshared : y.stop - 2 + 1 = x.stop - 2 := by omega
    have hdollar := hclose.2
    rw [hshared, (hx.closes x hxs).1] at hdollar
    exact absurd hdollar (by decide)

theorem eq_of_start_eq (hx : Spanned b spans) (hy : Spanned b others) (hxs : x ∈ spans)
    (hys : y ∈ others) (hstart : x.start = y.start) : x = y := by
  have hle := stop_le_stop hx hy hxs hys hstart
  have hge := stop_le_stop hy hx hys hxs hstart.symm
  cases x
  cases y
  simp_all only [Span.mk.injEq, true_and]
  omega

/-- A range of one list begins inside a range of the other one. -/
theorem exists_holds (hx : Spanned b spans) (hy : Spanned b others) (hxs : x ∈ spans) :
    ∃ y ∈ others, y.Holds x.start := by
  refine Classical.byContradiction fun hno => ?_
  have hlong := hx.long x hxs
  refine hy.outside x.start (hx.opens x hxs) (fun y hys hholds => hno ⟨y, hys, hholds⟩)
    (x.stop - 2) (by omega) (hx.closes x hxs) ?_
  intro k hk hstop
  exact hx.oneLine x hxs k (by omega) (by omega)

/-- A range is in the other list, if all ranges that begin before it are shared. -/
theorem mem_of_earlier (hx : Spanned b spans) (hy : Spanned b others) (hxs : x ∈ spans)
    (hearlier : ∀ y ∈ others, y.start < x.start → y ∈ spans) : x ∈ others := by
  obtain ⟨y, hys, hle, hlt⟩ := exists_holds hx hy hxs
  rcases Nat.eq_or_lt_of_le hle with heq | hbefore
  · rw [eq_of_start_eq hx hy hxs hys heq.symm]
    exact hys
  · have hstop := hx.stop_le_start (hearlier y hys hbefore) hxs hbefore
    omega

theorem mem_iff_mem (hx : Spanned b spans) (hy : Spanned b others) (n : Nat) :
    ∀ x : Span, x.start = n → (x ∈ spans ↔ x ∈ others) := by
  induction n using Nat.strongRecOn with
  | ind n ih =>
    rintro x rfl
    constructor
    · intro hxs
      exact mem_of_earlier hx hy hxs fun y hys hlt => (ih y.start hlt y rfl).2 hys
    · intro hxs
      exact mem_of_earlier hy hx hxs fun y hys hlt => (ih y.start hlt y rfl).1 hys

theorem pairwise_lt (h : Spanned b spans) : spans.Pairwise fun x y => x.start < y.start := by
  refine h.ordered.imp_of_mem fun {x y} hx _ hle => ?_
  have := h.long x hx
  omega

/-- The bytes have at most one list of ranges. -/
theorem unique (hx : Spanned b spans) (hy : Spanned b others) : spans = others := by
  have : Std.Irrefl fun x y : Span => x.start < y.start := ⟨fun x => Nat.lt_irrefl x.start⟩
  have : Std.Antisymm fun x y : Span => x.start < y.start :=
    ⟨fun x y hlt hgt => absurd hlt (Nat.lt_asymm hgt)⟩
  exact hx.pairwise_lt.eq_of_mem_iff hy.pairwise_lt fun x => mem_iff_mem hx hy x.start x rfl

end Spanned

/-! ## Two texts side by side -/

section

variable {p q : List UInt8} {i j : Nat}

theorem getElem?_append_add (p q : List UInt8) (i : Nat) : (p ++ q)[p.length + i]? = q[i]? := by
  rw [List.getElem?_append_right (Nat.le_add_right _ _), Nat.add_sub_cancel_left]

theorem opensAt_append_add : OpensAt (p ++ q) (p.length + i) ↔ OpensAt q i := by
  rw [OpensAt, OpensAt, Nat.add_assoc, getElem?_append_add, getElem?_append_add]

theorem closesAt_append_add : ClosesAt (p ++ q) (p.length + i) ↔ ClosesAt q i := by
  rw [ClosesAt, ClosesAt, Nat.add_assoc, getElem?_append_add, getElem?_append_add]

theorem oneLine_append_add : OneLine (p ++ q) (p.length + i) (p.length + j) ↔ OneLine q i j := by
  constructor
  · intro h k hi hj
    rw [← getElem?_append_add p q k]
    exact h (p.length + k) (by omega) (by omega)
  · intro h k hi hj
    obtain ⟨m, rfl⟩ := Nat.exists_eq_add_of_le (Nat.le_of_add_right_le hi)
    rw [getElem?_append_add]
    exact h m (by omega) (by omega)

theorem OpensAt.lt (h : OpensAt p i) : i + 1 < p.length :=
  (List.getElem?_eq_some_iff.1 h.2).1

theorem ClosesAt.lt (h : ClosesAt p i) : i + 1 < p.length :=
  (List.getElem?_eq_some_iff.1 h.2).1

theorem opensAt_append_left (hi : i + 1 < p.length) : OpensAt (p ++ q) i ↔ OpensAt p i := by
  rw [OpensAt, OpensAt, List.getElem?_append_left (Nat.lt_of_succ_lt hi),
    List.getElem?_append_left hi]

theorem closesAt_append_left (hi : i + 1 < p.length) : ClosesAt (p ++ q) i ↔ ClosesAt p i := by
  rw [ClosesAt, ClosesAt, List.getElem?_append_left (Nat.lt_of_succ_lt hi),
    List.getElem?_append_left hi]

theorem OneLine.of_le (h : OneLine p i j) {k : Nat} (hk : i ≤ k) : OneLine p k j :=
  fun m hm hj => h m (Nat.le_trans hk hm) hj

theorem OneLine.append (h : OneLine p i j) (hj : j ≤ p.length) (q : List UInt8) :
    OneLine (p ++ q) i j := by
  intro k hi hk
  rw [List.getElem?_append_left (Nat.lt_of_lt_of_le hk hj)]
  exact h k hi hk

end

namespace Spanned

variable {p q : List UInt8} {front spans : List Span}

/-- Bytes that open nothing have no ranges. -/
theorem nil (h : ∀ i, ¬OpensAt p i) : Spanned p [] where
  ordered := List.Pairwise.nil
  long := fun _ hx => absurd hx List.not_mem_nil
  opens := fun _ hx => absurd hx List.not_mem_nil
  closes := fun _ hx => absurd hx List.not_mem_nil
  oneLine := fun _ hx => absurd hx List.not_mem_nil
  body := fun _ hx => absurd hx List.not_mem_nil
  outside := fun i hi => absurd hi (h i)

theorem stop_le_length (h : Spanned p front) {x : Span} (hx : x ∈ front) :
    x.stop ≤ p.length := by
  have hlong := h.long x hx
  have hlt := (h.closes x hx).lt
  omega

/-- The ranges of two texts are those of the text that they make side by side, if no
opening that is left in the first one has a close on its line in both. -/
theorem append (hp : Spanned p front) (hq : Spanned q spans)
    (hseam : ∀ i < p.length, OpensAt (p ++ q) i → (∀ x ∈ front, ¬x.Holds i) →
      ∀ j, i + 2 ≤ j → ClosesAt (p ++ q) j → ¬OneLine (p ++ q) (i + 2) j) :
    Spanned (p ++ q) (front ++ spans.map (Span.shift p.length)) where
  ordered := by
    refine List.pairwise_append.2 ⟨hp.ordered, List.pairwise_map.2 ?_, ?_⟩
    · exact hq.ordered.imp fun hle => Nat.add_le_add_left hle _
    · intro x hx
      refine List.forall_mem_map.2 fun y _ => ?_
      exact Nat.le_trans (hp.stop_le_length hx) (Nat.le_add_right _ _)
  long := by
    refine List.forall_mem_append.2 ⟨hp.long, List.forall_mem_map.2 fun x hx => ?_⟩
    exact Nat.add_le_add_left (hq.long x hx) _
  opens := by
    refine List.forall_mem_append.2 ⟨fun x hx => ?_, List.forall_mem_map.2 fun x hx => ?_⟩
    · exact (opensAt_append_left (hp.opens x hx).lt).2 (hp.opens x hx)
    · exact opensAt_append_add.2 (hq.opens x hx)
  closes := by
    refine List.forall_mem_append.2 ⟨fun x hx => ?_, List.forall_mem_map.2 fun x hx => ?_⟩
    · exact (closesAt_append_left (hp.closes x hx).lt).2 (hp.closes x hx)
    · have hlong := hq.long x hx
      have hstop : (x.shift p.length).stop - 2 = p.length + (x.stop - 2) := by
        simp only [Span.shift]
        omega
      rw [hstop]
      exact closesAt_append_add.2 (hq.closes x hx)
  oneLine := by
    refine List.forall_mem_append.2 ⟨fun x hx => ?_, List.forall_mem_map.2 fun x hx => ?_⟩
    · exact (hp.oneLine x hx).append (hp.stop_le_length hx) q
    · exact oneLine_append_add.2 (hq.oneLine x hx)
  body := by
    refine List.forall_mem_append.2 ⟨fun x hx i hi hstop => ?_,
      List.forall_mem_map.2 fun x hx i hi hstop => ?_⟩
    · have hle := hp.stop_le_length hx
      rw [closesAt_append_left (by omega)]
      exact hp.body x hx i hi hstop
    · simp only [Span.shift] at hi hstop
      obtain ⟨m, rfl⟩ := Nat.exists_eq_add_of_le (show p.length ≤ i by omega)
      rw [closesAt_append_add]
      exact hq.body x hx m (by omega) (by omega)
  outside := by
    intro i hopen hno j hj hclose
    rw [List.forall_mem_append, List.forall_mem_map] at hno
    by_cases hi : i < p.length
    · exact hseam i hi hopen hno.1 j hj hclose
    · obtain ⟨m, rfl⟩ := Nat.exists_eq_add_of_le (Nat.not_lt.1 hi)
      obtain ⟨n, rfl⟩ := Nat.exists_eq_add_of_le (show p.length ≤ j by omega)
      rw [Nat.add_assoc, oneLine_append_add]
      refine hq.outside m (opensAt_append_add.1 hopen) (fun x hx hholds => ?_) n (by omega)
        (closesAt_append_add.1 hclose)
      exact hno.2 x hx ⟨Nat.add_le_add_left hholds.1 _, Nat.add_lt_add_left hholds.2 _⟩

end Spanned

/-! ## The statements of a text -/

theorem toNat_delimiters_lt :
    '$'.toNat < 128 ∧ '<'.toNat < 128 ∧ '>'.toNat < 128 ∧ '\n'.toNat < 128 := by
  decide

/-- A text without a close on its first line has none in its bytes. -/
theorem not_oneLine_of_close?_eq_none {t : Text} (h : close? t = none) {j : Nat}
    (hclose : ClosesAt t.utf8 j) : ¬OneLine t.utf8 0 j := by
  obtain ⟨hdollar, -, hgt, hnewline⟩ := toNat_delimiters_lt
  intro hline
  fun_induction close? t generalizing j with
  | case1 => simp [ClosesAt] at hclose
  | case2 rest =>
    have hfirst : (Text.utf8 ('\n' :: rest))[0]? = some '\n'.toUInt8 := by
      rw [Text.utf8_cons_of_lt hnewline, List.getElem?_cons_zero]
    rcases Nat.eq_zero_or_pos j with rfl | hj
    · rw [ClosesAt, hfirst] at hclose
      exact absurd hclose.1 (by decide)
    · exact hline 0 (Nat.le_refl 0) hj hfirst
  | case3 => cases h
  | case4 c rest hn hd ih =>
    rw [Option.map_eq_none_iff] at h
    by_cases hj : j < c.utf8Size
    · -- The close begins with `c` and ends with the first character of `rest`.
      obtain ⟨rfl, rfl⟩ := Text.eq_of_getElem?_utf8_cons hgt hj hclose.1
      have hnext := hclose.2
      rw [Text.utf8_cons_of_lt hgt, List.getElem?_cons_succ] at hnext
      obtain ⟨u, rfl⟩ := Text.exists_cons_of_getElem?_utf8 hdollar hnext
      exact hd u rfl rfl
    · obtain ⟨m, rfl⟩ := Nat.exists_eq_add_of_le (Nat.not_lt.1 hj)
      rw [Text.utf8_cons, ← String.length_utf8EncodeChar] at hclose hline
      exact ih h (closesAt_append_add.1 hclose) (oneLine_append_add.1 (hline.of_le (Nat.zero_le _)))

theorem newline_notMem_of_close? {t body after : Text} (h : close? t = some (body, after)) :
    '\n' ∉ body := by
  fun_induction close? t generalizing body after with
  | case1 => cases h
  | case2 => cases h
  | case3 rest =>
    cases h
    simp
  | case4 c rest hn hd ih =>
    obtain ⟨⟨b, a⟩, hb, he⟩ := Option.map_eq_some_iff.1 h
    cases he
    rw [List.mem_cons]
    rintro (rfl | hmem)
    · exact hn rfl
    · exact ih hb hmem

/-- The body of a statement has no close. -/
theorem not_closesAt_body {body : Text} (h : close? (body ++ ['>', '$']) = some (body, []))
    (j : Nat) : ¬ClosesAt body.utf8 j := by
  intro hclose
  have hnone : close? body = none := by
    cases hb : close? body with
    | none => rfl
    | some r =>
      have happ := close?_append hb ['>', '$']
      rw [h] at happ
      simp at happ
  refine not_oneLine_of_close?_eq_none hnone hclose fun k _ _ hk => ?_
  exact newline_notMem_of_close? h (Text.mem_of_getElem?_utf8 toNat_delimiters_lt.2.2.2 hk)

theorem utf8_delimited (body : Text) :
    (delimited body).utf8 = Text.utf8 ['$', '<'] ++ (body.utf8 ++ Text.utf8 ['>', '$']) := by
  rw [← Text.utf8_append, ← Text.utf8_append]
  rfl

/-- A statement by itself is one range. -/
theorem spanned_delimited {body : Text} (h : close? (body ++ ['>', '$']) = some (body, [])) :
    Spanned (delimited body).utf8 [⟨0, (delimited body).size⟩] := by
  have hopen : (Text.utf8 ['$', '<']).length = 2 := rfl
  have hbody : body.utf8.length = body.size := Text.length_utf8 body
  have hsize : (delimited body).size = 2 + (body.size + 2) := by
    rw [← Text.length_utf8, utf8_delimited, List.length_append, List.length_append, hbody]
    rfl
  refine ⟨List.pairwise_singleton .., ?_, ?_, ?_, ?_, ?_, ?_⟩
  · rw [List.forall_mem_singleton, hsize]
    show 0 + 4 ≤ 2 + (body.size + 2)
    omega
  · rw [List.forall_mem_singleton, utf8_delimited]
    exact ⟨rfl, rfl⟩
  · have hstop : 2 + (body.size + 2) - 2 =
        (Text.utf8 ['$', '<']).length + (body.utf8.length + 0) := by
      omega
    rw [List.forall_mem_singleton, utf8_delimited, hsize, hstop]
    exact closesAt_append_add.2 (closesAt_append_add.2 ⟨rfl, rfl⟩)
  · rw [List.forall_mem_singleton]
    intro k _ _ hk
    have hmem := Text.mem_of_getElem?_utf8 toNat_delimiters_lt.2.2.2 hk
    have hnot := newline_notMem_of_close? h
    simp [delimited, hnot] at hmem
  · rw [List.forall_mem_singleton, utf8_delimited, hsize]
    intro i hi hstop hclose
    obtain ⟨m, rfl⟩ := Nat.exists_eq_add_of_le (show (Text.utf8 ['$', '<']).length ≤ i from hi)
    have hroom : (Text.utf8 ['$', '<']).length + m + 2 ≤ 2 + (body.size + 2) - 2 := hstop
    rw [closesAt_append_add, closesAt_append_left (by omega)] at hclose
    exact not_closesAt_body h m hclose
  · intro i hi hno
    have hlt := hi.lt
    rw [Text.length_utf8] at hlt
    exact absurd ⟨Nat.zero_le i, Nat.lt_of_succ_lt hlt⟩ (hno _ List.mem_cons_self)

/-- A single character opens nothing. -/
theorem not_opensAt_singleton (c : Char) (i : Nat) : ¬OpensAt (String.utf8EncodeChar c) i := by
  intro h
  have hdollar := toNat_delimiters_lt.1
  have hlt := h.lt
  obtain rfl := Text.eq_of_mem_utf8EncodeChar hdollar (List.mem_of_getElem? h.1)
  rw [Text.utf8EncodeChar_of_lt hdollar, List.length_singleton] at hlt
  omega

theorem map_span_locate (n : Nat) (l : List Item) (start : Nat) :
    (locate (n + start) l).map Statement.span =
      ((locate start l).map Statement.span).map (Span.shift n) := by
  rw [locate_add, List.map_map, List.map_map]
  refine List.map_congr_left fun s _ => ?_
  simp [Statement.span, Span.shift]

/-- A loose opening has no close on its line. -/
theorem not_oneLine_of_loose {c : Char} {rest : List Item} (h : Settled (.char c :: rest))
    {i j : Nat} (hi : i < c.utf8Size) (hopen : OpensAt (written (.char c :: rest)).utf8 i)
    (hj : i + 2 ≤ j) (hclose : ClosesAt (written (.char c :: rest)).utf8 j) :
    ¬OneLine (written (.char c :: rest)).utf8 (i + 2) j := by
  obtain ⟨hdollar, hlt, -, -⟩ := toNat_delimiters_lt
  rw [written_char] at hopen hclose ⊢
  obtain ⟨rfl, rfl⟩ := Text.eq_of_getElem?_utf8_cons hdollar hi hopen.1
  have hnext := hopen.2
  rw [Text.utf8_cons_of_lt hdollar, List.getElem?_cons_succ] at hnext
  obtain ⟨u, hu⟩ := Text.exists_cons_of_getElem?_utf8 hlt hnext
  obtain ⟨after, rfl, rfl⟩ := eq_char_of_written hu
  have hnone : close? (written after) = none := h.1 after rfl rfl
  have hbytes : Text.utf8 ('$' :: written (.char '<' :: after)) =
      Text.utf8 ['$', '<'] ++ (written after).utf8 := by
    rw [← Text.utf8_append, written_char]
    rfl
  obtain ⟨m, rfl⟩ := Nat.exists_eq_add_of_le (show (Text.utf8 ['$', '<']).length ≤ j from hj)
  rw [hbytes] at hclose ⊢
  intro hline
  exact not_oneLine_of_close?_eq_none hnone (closesAt_append_add.1 hclose)
    (oneLine_append_add.1 hline)

/-- The statements of a list of items that is cut where its text is cut stand where the
grammar puts them. -/
theorem spanned_of_settled : ∀ {l : List Item}, Settled l →
    Spanned (written l).utf8 ((locate 0 l).map Statement.span)
  | [], _ => Spanned.nil fun i h => by simp [OpensAt] at h
  | .char c :: rest, h => by
    have hlocate : (locate 0 (.char c :: rest)).map Statement.span =
        [] ++ ((locate 0 rest).map Statement.span).map
          (Span.shift (String.utf8EncodeChar c).length) := by
      rw [locate, Nat.zero_add, String.length_utf8EncodeChar, ← map_span_locate]
      rfl
    rw [hlocate]
    refine (Spanned.nil (not_opensAt_singleton c)).append (spanned_of_settled h.2)
      fun i hi hopen _ j hj => ?_
    rw [String.length_utf8EncodeChar] at hi
    exact not_oneLine_of_loose h hi hopen hj
  | .statement body :: rest, h => by
    have hlocate : (locate 0 (.statement body :: rest)).map Statement.span =
        [⟨0, (delimited body).size⟩] ++ ((locate 0 rest).map Statement.span).map
          (Span.shift (delimited body).utf8.length) := by
      rw [locate, Nat.zero_add, Text.length_utf8, ← map_span_locate]
      simp [Statement.span, Statement.stop, Statement.text]
    have hwritten : (written (.statement body :: rest)).utf8 =
        (delimited body).utf8 ++ (written rest).utf8 := by
      rw [written_cons, Text.utf8_append]
      rfl
    rw [hlocate, hwritten]
    refine (spanned_delimited h.1).append (spanned_of_settled h.2) fun i hi _ hno => ?_
    rw [Text.length_utf8] at hi
    exact absurd ⟨Nat.zero_le i, hi⟩ (hno _ List.mem_cons_self)

/-- The bytes of the statements that are found in a text are the one list of ranges that
the grammar allows. -/
theorem spans_eq_iff (t : Text) (spans : List Span) :
    (scan t).map Statement.span = spans ↔ Spanned t.bytes.data.toList spans := by
  have hscan : Spanned t.bytes.data.toList ((scan t).map Statement.span) := by
    have hitems := spanned_of_settled (settled_items t)
    rwa [written_items, ← Text.toList_data_bytes] at hitems
  constructor
  · rintro rfl
    exact hscan
  · intro h
    exact hscan.unique h

example : (scan "$<$<a>$<b>$ $<".toList).map Statement.span = [⟨0, 7⟩] := by cbv

end Folio
