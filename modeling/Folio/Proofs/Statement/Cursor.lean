import Folio.Proofs.Statement.Tokens

/-!
# Scanning by byte offsets

`scan` cuts a text into items. Here a cursor moves through its bytes : a turn of the scanner
(`turn?`) looks for the next `$<` at or behind the cursor, for the end of that line, and for
the first `>$` in between. It slices the bytes where it searches, the body of a statement
out of the text, and the words out of the body, and every slice may fail.

A turn moves the cursor forward and not past the end of the text (`Advances.lt`), so a run
of turns is short (`length_le_of_isChain`). Both delimiters are made of characters of one
byte, so the bytes between an opening and its close are the characters between them
(`turn?_open`). `scanFrom?_eq` : from a boundary on, no slice fails, and what is found are
the statements of `scan`.
-/

namespace Folio

/-! ## Searching among bytes -/

namespace Bytes

/-- The bytes from `start` up to but not including `stop`. -/
def slice? (b : List UInt8) (start stop : Nat) : Option (List UInt8) :=
  if start ≤ stop ∧ stop ≤ b.length then some ((b.take stop).drop start) else none

/-- The first place where `needle` stands. -/
def find? (needle : List UInt8) : List UInt8 → Option Nat
  | [] => none
  | b :: rest =>
    if needle.isPrefixOf (b :: rest) then some 0 else (find? needle rest).map (· + 1)

/-- The first place from byte `start` up to byte `stop` where `needle` stands. -/
def findIn? (b needle : List UInt8) (start stop : Nat) : Option (Option Nat) :=
  (slice? b start stop).map fun part => (find? needle part).map (start + ·)

/-- Where the line ends that goes on at byte `i`. -/
def lineEnd? (b : List UInt8) (i : Nat) : Option Nat :=
  (findIn? b ['\n'.toUInt8] i b.length).map fun newline => newline.getD b.length

section

variable {b needle p q r : List UInt8} {i start stop : Nat}

theorem slice?_eq_some_iff {part : List UInt8} : slice? b start stop = some part ↔
    start ≤ stop ∧ stop ≤ b.length ∧ (b.take stop).drop start = part := by
  rw [slice?]
  split
  · rename_i h
    simp [h]
  · rename_i h
    simpa using fun hle hstop => absurd ⟨hle, hstop⟩ h

theorem slice?_append (p q r : List UInt8) :
    slice? (p ++ (q ++ r)) p.length (p.length + q.length) = some q := by
  refine slice?_eq_some_iff.2 ⟨Nat.le_add_right _ _, ?_, ?_⟩
  · rw [List.length_append, List.length_append]
    omega
  · rw [List.take_length_add_append, List.take_left, List.drop_left]

theorem findIn?_append (needle p q r : List UInt8) :
    findIn? (p ++ (q ++ r)) needle p.length (p.length + q.length) =
      some ((find? needle q).map (p.length + ·)) := by
  rw [findIn?, slice?_append, Option.map_some]

theorem find?_eq_none_iff (hne : needle ≠ []) :
    find? needle b = none ↔ ∀ i, ¬needle <+: b.drop i := by
  induction b with
  | nil => simpa [find?] using hne
  | cons x b ih =>
    rw [find?]
    split
    · rename_i hpre
      refine iff_of_false (by simp) fun h => h 0 ?_
      rwa [List.drop_zero, ← List.isPrefixOf_iff_prefix]
    · rename_i hpre
      rw [List.isPrefixOf_iff_prefix] at hpre
      rw [Option.map_eq_none_iff, ih]
      refine ⟨fun h i => ?_, fun h i => h (i + 1)⟩
      cases i with
      | zero => exact hpre
      | succ i => exact h i

theorem find?_eq_some_iff (hne : needle ≠ []) :
    find? needle b = some i ↔ needle <+: b.drop i ∧ ∀ j < i, ¬needle <+: b.drop j := by
  induction b generalizing i with
  | nil => simp [find?, hne]
  | cons x b ih =>
    rw [find?]
    split
    · rename_i hpre
      rw [List.isPrefixOf_iff_prefix] at hpre
      constructor
      · intro h
        obtain rfl := Option.some.inj h
        exact ⟨hpre, fun j hj => absurd hj (Nat.not_lt_zero j)⟩
      · rintro ⟨-, hfirst⟩
        rcases Nat.eq_zero_or_pos i with rfl | hi
        · rfl
        · exact absurd hpre (hfirst 0 hi)
    · rename_i hpre
      rw [List.isPrefixOf_iff_prefix] at hpre
      cases i with
      | zero => simpa using hpre
      | succ i =>
        have hsome : (find? needle b).map (· + 1) = some (i + 1) ↔ find? needle b = some i := by
          simp
        rw [hsome, ih, List.drop_succ_cons]
        refine and_congr_right fun _ => ⟨fun h j hj => ?_, fun h j hj => h (j + 1) (by omega)⟩
        cases j with
        | zero => exact hpre
        | succ j => exact h j (by omega)

/-- What is found lies where it was looked for. -/
theorem bounds_of_findIn? (hne : needle ≠ []) (h : findIn? b needle start stop = some (some i)) :
    start ≤ i ∧ i + needle.length ≤ stop ∧ stop ≤ b.length := by
  obtain ⟨part, hpart, hfind⟩ := Option.map_eq_some_iff.1 h
  obtain ⟨hle, hstop, rfl⟩ := slice?_eq_some_iff.1 hpart
  obtain ⟨k, hk, rfl⟩ := Option.map_eq_some_iff.1 hfind
  have hlength := ((find?_eq_some_iff hne).1 hk).1.length_le
  have hpos := List.length_pos_iff.2 hne
  rw [List.length_drop, List.length_drop, List.length_take] at hlength
  omega

end

/-- Two bytes stand where each of them stands. -/
theorem prefix_pair_iff {x y : UInt8} {b : List UInt8} {i : Nat} :
    [x, y] <+: b.drop i ↔ b[i]? = some x ∧ b[i + 1]? = some y := by
  have hfirst : (b.drop i)[0]? = b[i]? := List.getElem?_drop
  have hsecond : (b.drop i)[1]? = b[i + 1]? := List.getElem?_drop
  rw [← hfirst, ← hsecond]
  rcases b.drop i with _ | ⟨a, _ | ⟨c, rest⟩⟩
  · simp
  · simp
  · simp [eq_comm]

end Bytes

/-- The bytes of `$<`. -/
def openDelimiter : List UInt8 :=
  Text.utf8 ['$', '<']

/-- The bytes of `>$`. -/
def closeDelimiter : List UInt8 :=
  Text.utf8 ['>', '$']

theorem openDelimiter_ne_nil : openDelimiter ≠ [] := by
  decide

theorem closeDelimiter_ne_nil : closeDelimiter ≠ [] := by
  decide

theorem openDelimiter_prefix_iff {b : List UInt8} {i : Nat} :
    openDelimiter <+: b.drop i ↔ OpensAt b i :=
  Bytes.prefix_pair_iff

theorem closeDelimiter_prefix_iff {b : List UInt8} {i : Nat} :
    closeDelimiter <+: b.drop i ↔ ClosesAt b i :=
  Bytes.prefix_pair_iff

/-! ## The scanner -/

/-- A statement as it is found : its words, and the bytes that it takes up. -/
structure Sighting where
  command : Text
  args : List Text
  span : Span
deriving DecidableEq

/-- What one turn of the scanner comes to. -/
inductive Turn where
  | finished
  | onward (cursor : Nat)
  | found (s : Sighting)

/-- Where the next turn begins, if there is one. -/
def Turn.cursor? : Turn → Option Nat
  | .finished => none
  | .onward cursor => some cursor
  | .found s => some s.span.stop

/-- One turn of the scanner, where `lexer` cuts the body of a statement into tokens. If there
is no opening ahead the cursor goes to the end of the text. -/
def turn? (lexer : Text → List Token) (t : Text) (cursor : Nat) : Option Turn :=
  if t.utf8.length ≤ cursor then some .finished
  else do
    match ← Bytes.findIn? t.utf8 openDelimiter cursor t.utf8.length with
    | none => return .onward t.utf8.length
    | some start =>
      let stop ← Bytes.lineEnd? t.utf8 (start + 2)
      match ← Bytes.findIn? t.utf8 closeDelimiter (start + 2) stop with
      | none => return .onward (start + 2)
      | some close =>
        let body ← t.slice? (start + 2) close
        let words ← wordsAt? body (lexer body)
        return .found ⟨words.headD [], words.tail, ⟨start, close + 2⟩⟩

/-- Whether a turn at the cursor `c` moves it to `d`. -/
def Advances (lexer : Text → List Token) (t : Text) (c d : Nat) : Prop :=
  ∃ turn, turn? lexer t c = some turn ∧ turn.cursor? = some d

section

variable {lexer : Text → List Token} {t : Text} {c d : Nat}

/-- A turn moves the cursor forward, and not past the end of the text. -/
theorem Advances.lt (h : Advances lexer t c d) : c < d ∧ d ≤ t.size := by
  obtain ⟨turn, hturn, hd⟩ := h
  rw [← Text.length_utf8]
  unfold turn? at hturn
  split at hturn
  · cases hturn
    cases hd
  obtain ⟨found, hfound, hturn⟩ := Option.bind_eq_some_iff.1 hturn
  cases found with
  | none =>
    cases hturn
    cases hd
    omega
  | some start =>
    have hstart := Bytes.bounds_of_findIn? openDelimiter_ne_nil hfound
    have htwo : openDelimiter.length = 2 := rfl
    obtain ⟨stop, -, hturn⟩ := Option.bind_eq_some_iff.1 hturn
    obtain ⟨found, hfound, hturn⟩ := Option.bind_eq_some_iff.1 hturn
    cases found with
    | none =>
      cases hturn
      cases hd
      omega
    | some close =>
      have hclose := Bytes.bounds_of_findIn? closeDelimiter_ne_nil hfound
      have htwo' : closeDelimiter.length = 2 := rfl
      obtain ⟨body, -, hturn⟩ := Option.bind_eq_some_iff.1 hturn
      obtain ⟨words, -, hturn⟩ := Option.bind_eq_some_iff.1 hturn
      cases hturn
      cases hd
      show c < close + 2 ∧ close + 2 ≤ t.utf8.length
      omega

/-- A run of turns has at most one turn for each byte ahead. -/
theorem length_le_of_isChain : ∀ {cursors : List Nat} {c : Nat},
    (c :: cursors).IsChain (Advances lexer t) → cursors.length ≤ t.size - c
  | [], _, _ => Nat.zero_le _
  | d :: cursors, c, h => by
    obtain ⟨hcd, hrest⟩ := List.isChain_cons_cons.1 h
    have hlt := hcd.lt
    have hle := length_le_of_isChain hrest
    rw [List.length_cons]
    omega

/-- The cursors of a run of turns increase. -/
theorem pairwise_of_isChain {cursors : List Nat} (h : cursors.IsChain (Advances lexer t)) :
    cursors.Pairwise (· < ·) :=
  List.isChain_iff_pairwise.1 (h.imp fun _ _ hcd => hcd.lt.1)

end

/-- What the scanner finds from a cursor on. -/
def scanFrom? (lexer : Text → List Token) (t : Text) (cursor : Nat) : Option (List Sighting) :=
  match _h : turn? lexer t cursor with
  | none => none
  | some .finished => some []
  | some (.onward next) => scanFrom? lexer t next
  | some (.found s) => (scanFrom? lexer t s.span.stop).map (s :: ·)
termination_by t.size - cursor
decreasing_by
  · have := Advances.lt ⟨_, _h, rfl⟩
    omega
  · have := Advances.lt ⟨_, _h, rfl⟩
    omega

section

variable {lexer : Text → List Token} {t : Text} {cursor : Nat}

theorem scanFrom?_finished (h : turn? lexer t cursor = some .finished) :
    scanFrom? lexer t cursor = some [] := by
  rw [scanFrom?]
  split <;> simp_all

theorem scanFrom?_onward {next : Nat} (h : turn? lexer t cursor = some (.onward next)) :
    scanFrom? lexer t cursor = scanFrom? lexer t next := by
  rw [scanFrom?]
  split <;> simp_all

theorem scanFrom?_found {s : Sighting} (h : turn? lexer t cursor = some (.found s)) :
    scanFrom? lexer t cursor = (scanFrom? lexer t s.span.stop).map (s :: ·) := by
  rw [scanFrom?]
  split <;> simp_all

end

/-! ## The end of a line -/

/-- How many bytes stand in front of the first line end. -/
def lineLength (b : List UInt8) : Nat :=
  (Bytes.find? ['\n'.toUInt8] b).getD b.length

section

variable {b : List UInt8} {i n : Nat}

theorem singleton_prefix_iff {x : UInt8} : [x] <+: b.drop i ↔ b[i]? = some x := by
  have hfirst : (b.drop i)[0]? = b[i]? := List.getElem?_drop
  rw [← hfirst]
  cases b.drop i <;> simp [eq_comm]

/-- There is no line end in front of the first one. -/
theorem oneLine_iff_le_lineLength (hn : n ≤ b.length) : OneLine b 0 n ↔ n ≤ lineLength b := by
  have hne : ['\n'.toUInt8] ≠ [] := by simp
  rw [lineLength]
  cases h : Bytes.find? ['\n'.toUInt8] b with
  | none =>
    rw [Bytes.find?_eq_none_iff hne] at h
    exact iff_of_true (fun k _ _ hk => h k (singleton_prefix_iff.2 hk)) hn
  | some m =>
    obtain ⟨hm, hfirst⟩ := (Bytes.find?_eq_some_iff hne).1 h
    constructor
    · intro hline
      exact Nat.not_lt.1 fun hlt => hline m (Nat.zero_le m) hlt (singleton_prefix_iff.1 hm)
    · intro hle k _ hk hnewline
      exact hfirst k (Nat.lt_of_lt_of_le hk hle) (singleton_prefix_iff.2 hnewline)

theorem lineLength_le (b : List UInt8) : lineLength b ≤ b.length := by
  rw [lineLength]
  cases h : Bytes.find? ['\n'.toUInt8] b with
  | none => exact Nat.le_refl _
  | some m =>
    have hm := ((Bytes.find?_eq_some_iff (by simp)).1 h).1.length_le
    rw [List.length_drop, List.length_singleton] at hm
    show m ≤ b.length
    omega

theorem closesAt_take_iff : ClosesAt (b.take n) i ↔ ClosesAt b i ∧ i + 1 < n := by
  rw [ClosesAt, ClosesAt, List.getElem?_take, List.getElem?_take]
  constructor
  · rintro ⟨hfirst, hsecond⟩
    split at hsecond
    · rename_i hlt
      rw [if_pos (Nat.lt_of_succ_lt hlt)] at hfirst
      exact ⟨⟨hfirst, hsecond⟩, hlt⟩
    · cases hsecond
  · rintro ⟨hclose, hlt⟩
    rwa [if_pos (Nat.lt_of_succ_lt hlt), if_pos hlt]

end

/-- No close begins in the body of a statement. -/
theorem not_closesAt_of_close? {t body after : Text} (h : close? t = some (body, after)) {j : Nat}
    (hj : j < body.size) : ¬ClosesAt t.utf8 j := by
  have hgt := toNat_delimiters_lt.2.2.1
  rw [close?_eq_append h]
  intro hclose
  by_cases hlast : j + 1 < body.size
  · rw [Text.utf8_append, closesAt_append_left (by rwa [Text.length_utf8])] at hclose
    exact not_closesAt_body (close?_body h) j hclose
  · -- The second byte of the close would be the first one of another close.
    have hplace : j + 1 = body.size := by omega
    have hnext := hclose.2
    rw [hplace, Text.getElem?_utf8_of_lt hgt] at hnext
    exact absurd hnext (by decide)

/-- The first close on the first line of the bytes is where the body of a statement ends. -/
theorem find?_close (t : Text) : Bytes.find? closeDelimiter (t.utf8.take (lineLength t.utf8)) =
    (close? t).map fun r => r.1.size := by
  cases h : close? t with
  | none =>
    rw [Option.map_none, Bytes.find?_eq_none_iff closeDelimiter_ne_nil]
    intro j hpre
    obtain ⟨hclose, hlt⟩ := closesAt_take_iff.1 (closeDelimiter_prefix_iff.1 hpre)
    have hle := lineLength_le t.utf8
    exact not_oneLine_of_close?_eq_none h hclose
      ((oneLine_iff_le_lineLength (by omega)).2 (by omega))
  | some r =>
    obtain ⟨body, after⟩ := r
    have htext := close?_eq_append h
    have hbytes : t.utf8 = body.utf8 ++ (closeDelimiter ++ after.utf8) := by
      rw [htext, closeDelimiter, ← Text.utf8_append, ← Text.utf8_append]
      rfl
    have hclose : ClosesAt t.utf8 body.size := by
      rw [hbytes, ← Text.length_utf8, ← Nat.add_zero body.utf8.length, closesAt_append_add]
      exact ⟨rfl, rfl⟩
    have hline : OneLine t.utf8 0 (body.size + 2) := by
      have hnot := newline_notMem_of_close? h
      have hfront : t.utf8 = Text.utf8 (body ++ ['>', '$']) ++ after.utf8 := by
        rw [htext, ← Text.utf8_append, List.append_assoc]
        rfl
      intro k _ hk hnewline
      rw [hfront, List.getElem?_append_left (by
        rw [Text.length_utf8, Text.size_append]
        exact hk)] at hnewline
      have hmem := Text.mem_of_getElem?_utf8 toNat_delimiters_lt.2.2.2 hnewline
      simp [hnot] at hmem
    have hroom := (oneLine_iff_le_lineLength hclose.lt).1 hline
    rw [Option.map_some, Bytes.find?_eq_some_iff closeDelimiter_ne_nil, closeDelimiter_prefix_iff]
    refine ⟨closesAt_take_iff.2 ⟨hclose, hroom⟩, fun j hj hpre => ?_⟩
    exact not_closesAt_of_close? h hj (closesAt_take_iff.1 (closeDelimiter_prefix_iff.1 hpre)).1

/-! ## The items in front of an opening -/

theorem locate_map_char (start : Nat) (u : Text) (l : List Item) :
    locate start (u.map Item.char ++ l) = locate (start + u.size) l := by
  induction u generalizing start with
  | nil => rfl
  | cons c u ih =>
    rw [List.map_cons, List.cons_append, locate, ih, Text.size_cons, Nat.add_assoc]

/-- In front of the first opening all characters are loose. -/
theorem items_append_of_not_opensAt {u v : Text}
    (h : ∀ i < u.size, ¬OpensAt (Text.utf8 (u ++ v)) i) :
    items (u ++ v) = u.map Item.char ++ items v := by
  obtain ⟨hdollar, hlt, -, -⟩ := toNat_delimiters_lt
  induction u with
  | nil => rfl
  | cons c u ih =>
    have hchar : ∀ w, c = '$' → u ++ v ≠ '<' :: w := by
      rintro w rfl hw
      refine h 0 (by rw [Text.size_cons]; have := Char.utf8Size_pos '$'; omega) ?_
      rw [List.cons_append, hw, OpensAt, Text.utf8_cons_of_lt hdollar, Text.utf8_cons_of_lt hlt]
      exact ⟨rfl, rfl⟩
    have hrest : ∀ i < Text.size u, ¬OpensAt (Text.utf8 (u ++ v)) i := by
      intro i hi hopen
      refine h (c.utf8Size + i) (by rw [Text.size_cons]; omega) ?_
      rwa [List.cons_append, Text.utf8_cons, ← String.length_utf8EncodeChar, opensAt_append_add]
    rw [List.cons_append, items_char hchar, ih hrest]
    rfl

theorem items_of_find?_eq_none {t : Text} (h : Bytes.find? openDelimiter t.utf8 = none) :
    items t = t.map Item.char := by
  rw [Bytes.find?_eq_none_iff openDelimiter_ne_nil] at h
  have hitems := items_append_of_not_opensAt (u := t) (v := []) fun i _ hopen => by
    rw [List.append_nil] at hopen
    exact h i (openDelimiter_prefix_iff.2 hopen)
  rwa [List.append_nil, items, List.append_nil] at hitems

/-- The first opening among the bytes is an opening of the text, which can be broken in front
of it and behind it. -/
theorem exists_of_find?_open {t : Text} {i : Nat} (h : Bytes.find? openDelimiter t.utf8 = some i) :
    ∃ u v, t = u ++ '$' :: '<' :: v ∧ u.size = i ∧
      items t = u.map Item.char ++ items ('$' :: '<' :: v) := by
  obtain ⟨hdollar, hlt, -, -⟩ := toNat_delimiters_lt
  obtain ⟨hpre, hfirst⟩ := (Bytes.find?_eq_some_iff openDelimiter_ne_nil).1 h
  have hopen := openDelimiter_prefix_iff.1 hpre
  obtain ⟨u, w, rfl, rfl⟩ := Text.exists_of_getElem?_utf8 hdollar hopen.1
  have hnext := hopen.2
  rw [Text.utf8_append, ← Text.length_utf8, getElem?_append_add, Text.utf8_cons_of_lt hdollar,
    List.getElem?_cons_succ] at hnext
  obtain ⟨v, rfl⟩ := Text.exists_cons_of_getElem?_utf8 hlt hnext
  exact ⟨u, v, rfl, rfl, items_append_of_not_opensAt fun j hj hat =>
    hfirst j hj (openDelimiter_prefix_iff.2 hat)⟩

/-! ## One turn -/

theorem size_delimited (body : Text) : (delimited body).size = body.size + 4 := by
  have hdelimiters : Text.size ['$', '<'] + Text.size ['>', '$'] = 4 := rfl
  have hsize : (delimited body).size =
      Text.size ['$', '<'] + (body.size + Text.size ['>', '$']) := by
    rw [← Text.size_append, ← Text.size_append]
    rfl
  omega

theorem findIn?_rest (needle : List UInt8) (before rest : Text) :
    Bytes.findIn? (Text.utf8 (before ++ rest)) needle before.size
        (Text.utf8 (before ++ rest)).length =
      some ((Bytes.find? needle rest.utf8).map (before.size + ·)) := by
  have h := Bytes.findIn?_append needle before.utf8 rest.utf8 []
  rwa [List.append_nil, ← Text.utf8_append, ← List.length_append, ← Text.utf8_append,
    Text.length_utf8 before] at h

theorem lineEnd?_rest (before rest : Text) :
    Bytes.lineEnd? (Text.utf8 (before ++ rest)) before.size =
      some (before.size + lineLength rest.utf8) := by
  rw [Bytes.lineEnd?, findIn?_rest, Option.map_some, lineLength]
  cases Bytes.find? ['\n'.toUInt8] rest.utf8 <;> simp

theorem findIn?_close (before rest : Text) :
    Bytes.findIn? (Text.utf8 (before ++ rest)) closeDelimiter before.size
        (before.size + lineLength rest.utf8) =
      some ((close? rest).map fun r => before.size + r.1.size) := by
  have h := Bytes.findIn?_append closeDelimiter before.utf8 (rest.utf8.take (lineLength rest.utf8))
    (rest.utf8.drop (lineLength rest.utf8))
  rwa [List.take_append_drop, List.length_take, Nat.min_eq_left (lineLength_le _),
    ← Text.utf8_append, Text.length_utf8 before, find?_close, Option.map_map] at h

section

variable {lexer : Text → List Token} {before u v : Text}

/-- If there is no opening ahead nothing is found, and the cursor ends behind the text. -/
theorem scanFrom?_of_find?_eq_none {rest : Text}
    (h : Bytes.find? openDelimiter rest.utf8 = none) :
    scanFrom? lexer (before ++ rest) before.size = some [] := by
  by_cases hend : (Text.utf8 (before ++ rest)).length ≤ before.size
  · exact scanFrom?_finished (if_pos hend)
  · have hturn : turn? lexer (before ++ rest) before.size =
        some (.onward (Text.utf8 (before ++ rest)).length) := by
      rw [turn?, if_neg hend, findIn?_rest, h]
      rfl
    rw [scanFrom?_onward hturn]
    exact scanFrom?_finished (if_pos (Nat.le_refl _))

/-- A turn that comes to an opening looks for its close. -/
theorem turn?_open
    (h : Bytes.find? openDelimiter (Text.utf8 (u ++ '$' :: '<' :: v)) = some u.size) :
    turn? lexer (before ++ (u ++ '$' :: '<' :: v)) before.size =
      match close? v with
      | none => some (.onward (before ++ (u ++ ['$', '<'])).size)
      | some (body, _) => (wordsAt? body (lexer body)).map fun words =>
        .found ⟨words.headD [], words.tail,
          ⟨(before ++ u).size, (before ++ u ++ delimited body).size⟩⟩ := by
  have hfront : before ++ (u ++ '$' :: '<' :: v) = (before ++ (u ++ ['$', '<'])) ++ v := by simp
  have hstart : before.size + u.size + 2 = (before ++ (u ++ ['$', '<'])).size := by
    rw [Text.size_append, Text.size_append, ← Nat.add_assoc]
    rfl
  have hroom : ¬(Text.utf8 (before ++ (u ++ '$' :: '<' :: v))).length ≤ before.size := by
    have hsize := congrArg Text.size hfront
    rw [Text.size_append (before ++ _), ← hstart] at hsize
    rw [Text.length_utf8]
    omega
  have hline : Bytes.lineEnd? (Text.utf8 (before ++ (u ++ '$' :: '<' :: v)))
      (before.size + u.size + 2) =
        some ((before ++ (u ++ ['$', '<'])).size + lineLength v.utf8) := by
    rw [hfront, hstart, lineEnd?_rest]
  have hclose : Bytes.findIn? (Text.utf8 (before ++ (u ++ '$' :: '<' :: v))) closeDelimiter
      (before.size + u.size + 2) ((before ++ (u ++ ['$', '<'])).size + lineLength v.utf8) =
        some ((close? v).map fun r => (before ++ (u ++ ['$', '<'])).size + r.1.size) := by
    rw [hfront, hstart, findIn?_close]
  rw [turn?, if_neg hroom, findIn?_rest, h]
  simp only [Option.bind_eq_bind, Option.bind_some, Option.map_some, hline, hclose]
  cases hv : close? v with
  | none => rw [← hstart]; rfl
  | some r =>
    obtain ⟨body, after⟩ := r
    have hbody : Text.slice? (before ++ (u ++ '$' :: '<' :: v)) (before.size + u.size + 2)
        ((before ++ (u ++ ['$', '<'])).size + body.size) = some body := by
      rw [hfront, hstart, close?_eq_append hv]
      exact Text.slice?_eq_some_iff.2 ⟨_, _, rfl, rfl, rfl⟩
    have hstop : (before ++ (u ++ ['$', '<'])).size + body.size + 2 =
        (before ++ u ++ delimited body).size := by
      rw [← hstart, Text.size_append (before ++ u), Text.size_append before, size_delimited]
      omega
    simp only [Option.map_some, hbody, Option.bind_some, hstop, Text.size_append before u]
    cases wordsAt? body (lexer body) <;> rfl

end

/-! ## The whole scan -/

/-- A statement as the scanner finds it, where `w` splits a body into words. -/
def Statement.sighting (w : Text → List Text) (s : Statement) : Sighting :=
  ⟨(w s.body).headD [], (w s.body).tail, s.span⟩

/-- From a boundary on, the scanner finds the statements of the rest of the text. -/
theorem scanFrom?_eq {lexer : Text → List Token} {w : Text → List Text}
    (hw : ∀ body, wordsAt? body (lexer body) = some (w body)) (before rest : Text) :
    scanFrom? lexer (before ++ rest) before.size =
      some ((locate before.size (items rest)).map (Statement.sighting w)) := by
  induction hn : rest.length using Nat.strongRecOn generalizing before rest with
  | ind n ih =>
    cases hfind : Bytes.find? openDelimiter rest.utf8 with
    | none =>
      have hnone := locate_map_char before.size rest []
      rw [List.append_nil] at hnone
      rw [scanFrom?_of_find?_eq_none hfind, items_of_find?_eq_none hfind, hnone]
      rfl
    | some i =>
      obtain ⟨u, v, rfl, rfl, hitems⟩ := exists_of_find?_open hfind
      have hturn := @turn?_open lexer before u v hfind
      rw [hitems, locate_map_char, ← Text.size_append]
      cases hclose : close? v with
      | none =>
        rw [hclose] at hturn
        have hrest := ih v.length (by rw [← hn]; simp; omega) (before ++ (u ++ ['$', '<'])) v rfl
        have htext : before ++ (u ++ '$' :: '<' :: v) = (before ++ (u ++ ['$', '<'])) ++ v := by
          simp
        rw [scanFrom?_onward hturn, items_open hclose, htext, hrest, ← List.append_assoc,
          Text.size_append]
        rfl
      | some r =>
        obtain ⟨body, after⟩ := r
        rw [hclose] at hturn
        simp only [hw, Option.map_some] at hturn
        have htext : before ++ (u ++ '$' :: '<' :: v) =
            (before ++ u ++ delimited body) ++ after := by
          rw [close?_eq_append hclose]
          simp [delimited]
        have hlength : after.length < n := by
          rw [← hn, close?_eq_append hclose]
          simp
          omega
        have hrest := ih after.length hlength (before ++ u ++ delimited body) after rfl
        have hstatement : items ('$' :: '<' :: v) = .statement body :: items after := by
          rw [close?_eq_append hclose, items_statement (close?_body hclose)]
        rw [scanFrom?_found hturn, hstatement, htext, hrest, Text.size_append (before ++ u), locate]
        rfl

/-- A statement takes up four bytes at least. -/
theorem four_mul_length_locate_le (l : List Item) (start : Nat) :
    4 * (locate start l).length ≤ (written l).size := by
  induction l generalizing start with
  | nil => exact Nat.le_refl 0
  | cons i l ih =>
    cases i with
    | char c =>
      rw [locate, written_char, Text.size_cons]
      exact Nat.le_trans (ih _) (Nat.le_add_left _ _)
    | statement body =>
      have hrest := ih (start + (delimited body).size)
      have hsize : (written (.statement body :: l)).size = body.size + 4 + (written l).size := by
        rw [written_cons, Text.size_append, ← size_delimited]
        rfl
      rw [locate, List.length_cons]
      omega

/-- A text has at most one statement for four bytes. -/
theorem four_mul_length_scan_le (t : Text) : 4 * (scan t).length ≤ t.size := by
  have h := four_mul_length_locate_le (items t) 0
  rwa [written_items] at h

end Folio
