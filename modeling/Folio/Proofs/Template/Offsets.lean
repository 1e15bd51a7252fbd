import Folio.Proofs.Statement.Cursor
import Folio.Proofs.Template.Replace
import Folio.Proofs.Template.Shape

/-!
# Segmentation and resolution by byte offsets

`segment` and `resolveText` go through the items of a text. Here both go through the
statements that the scanner found, with a cursor of their own, and slice what they copy out
of the text : the gap in front of a statement, the statement itself, and the tail behind the
last one. Every slice may fail.

The gaps between the statements of a text are sliced between boundaries (`laid_locate`), so
neither loop can fail, whatever words the statements have. With the words of `splitWords`
the loops answer what `segment` and `resolveText` answer (`readFrom?_eq`, `fillFrom?_eq`).

`slices_answered` : scanning, splitting, segmentation and resolution slice a text only where
it can be sliced.
-/

namespace Folio

/-! ## Segmentation -/

namespace Sighting

/-- Whether a statement opens a section. -/
def isOpening (s : Sighting) : Bool :=
  s.command = fillCommand ∨ s.command = defCommand

/-- Whether a statement names a parent. -/
def isInherit (s : Sighting) : Bool :=
  s.command = inheritCommand

/-- What a statement stands for, or why it stands for nothing. -/
def value (scope : Scope) (s : Sighting) : Except WarningKind Text :=
  if s.command = slotCommand then
    match s.args with
    | [name] =>
      match scope.get? name with
      | some text => .ok text
      | none => .error (.missingVariable name)
    | args => .error (.invalidArguments s.command args.length)
  else .error (.unknownCommand s.command)

end Sighting

/-- What the reading of a document has come to. -/
structure Reading where
  cursor : Nat
  parent : Option Path
  sections : Dict Text
  body : Text
  /-- The section that is open, and its text so far. -/
  current : Option (Text × Text)
  openedAny : Bool

namespace Reading

/-- Before anything is read. -/
def start : Reading :=
  ⟨0, none, .empty, [], none, false⟩

/-- The text up to the byte `cursor` belongs to the body and to the open section. -/
def pass (r : Reading) (front : Text) (cursor : Nat) : Reading :=
  { r with
    cursor := cursor
    body := r.body ++ front
    current := r.current.map fun s => (s.1, s.2 ++ front) }

/-- The sections with the open one. -/
def closed (r : Reading) : Dict Text :=
  match r.current with
  | some (name, text) => r.sections.insert name text
  | none => r.sections

/-- What is left at the end of the document. -/
def finish (r : Reading) : Segmented :=
  ⟨r.parent, if !r.openedAny || r.parent.isNone then r.closed.insert anonymous r.body
    else r.closed⟩

/-- A section is opened, or a parent is named. -/
def shape (rules : Rules) (r : Reading) (s : Sighting) (arg : Text) : Except ShapeError Reading :=
  if s.isOpening then
    if rules.strictFill && r.parent.isNone then .error (.fillWithoutParent arg)
    else .ok { r with sections := r.closed, current := some (arg, []), openedAny := true }
  else if r.parent.isSome then .error .duplicateInherit
  else .ok { r with parent := some (rules.root.join ⟨arg⟩) }

theorem cursor_of_shape {rules : Rules} {r next : Reading} {s : Sighting} {arg : Text}
    (h : r.shape rules s arg = .ok next) : next.cursor = r.cursor := by
  unfold shape at h
  split at h
  · split at h <;> cases h
    rfl
  · split at h <;> cases h
    rfl

end Reading

/-- The shape of a document, from the statements `found` behind the cursor on. -/
def readFrom? (rules : Rules) (doc : Document) (r : Reading) :
    List Sighting → Option (Except SegmentError Segmented)
  | [] => (doc.text.slice? r.cursor doc.text.size).map fun tail =>
    .ok (r.pass tail doc.text.size).finish
  | s :: rest =>
    if s.isOpening || s.isInherit then
      match s.args with
      | [arg] =>
        (doc.text.slice? r.cursor s.span.start).bind fun front =>
          match (r.pass front s.span.stop).shape rules s arg with
          | .ok next => readFrom? rules doc next rest
          | .error fault => some (.error ⟨doc.path, fault⟩)
      | args => some (.error ⟨doc.path, .invalidArguments s.command args.length⟩)
    else readFrom? rules doc r rest

/-- Splits a document into its parent and its sections, by the statements that are found in
it. -/
def segmentAt? (lexer : Text → List Token) (rules : Rules) (doc : Document) :
    Option (Except SegmentError Segmented) :=
  (scanFrom? lexer doc.text 0).bind (readFrom? rules doc .start)

/-! ## Resolution -/

/-- The resolved text behind the cursor, and the warnings about it. -/
def fillFrom? (scope : Scope) (file : Path) (sectionName t : Text) (cursor : Nat) :
    List Sighting → Option (Text × List Warning)
  | [] => (t.slice? cursor t.size).map fun tail => (tail, [])
  | s :: rest => do
    let gap ← t.slice? cursor s.span.start
    let original ← t.slice? s.span.start s.span.stop
    let (text, warnings) ← fillFrom? scope file sectionName t s.span.stop rest
    match s.value scope with
    | .ok value => return (gap ++ (value ++ text), warnings)
    | .error kind =>
      return (gap ++ (original ++ text), ⟨file, sectionName, original, kind⟩ :: warnings)

/-- Replaces the statements that are found in a text. -/
def resolveAt? (lexer : Text → List Token) (scope : Scope) (file : Path) (sectionName t : Text) :
    Option (Text × List Warning) :=
  (scanFrom? lexer t 0).bind (fillFrom? scope file sectionName t 0)

/-! ## Gaps, statements and tails -/

/-- Whether the gaps in front of some ranges, the ranges, and the tail behind them can be
sliced out of a text, from a cursor on. -/
def Laid (t : Text) (cursor : Nat) : List Span → Prop
  | [] => ∃ tail, t.slice? cursor t.size = some tail
  | x :: rest => (∃ gap, t.slice? cursor x.start = some gap) ∧
    (∃ part, t.slice? x.start x.stop = some part) ∧ Laid t x.stop rest

theorem Laid.of_slice? {t u : Text} {c d : Nat} {spans : List Span} (h : Laid t d spans)
    (hu : t.slice? c d = some u) : Laid t c spans := by
  cases spans with
  | nil =>
    obtain ⟨tail, htail⟩ := h
    exact ⟨u ++ tail, Text.slice?_trans hu htail⟩
  | cons x rest =>
    obtain ⟨⟨gap, hgap⟩, hrest⟩ := h
    exact ⟨⟨u ++ gap, Text.slice?_trans hu hgap⟩, hrest⟩

/-- The statements of a text can be sliced out, and what stands between them. -/
theorem laid_locate (l : List Item) : ∀ before : Text,
    Laid (before ++ written l) before.size ((locate before.size l).map Statement.span) := by
  induction l with
  | nil =>
    intro before
    exact ⟨[], Text.slice?_eq_some_iff.2 ⟨before, [], rfl, rfl, by simp⟩⟩
  | cons i l ih =>
    intro before
    have hrest := ih (before ++ i.text)
    rw [List.append_assoc, ← written_cons, Text.size_append] at hrest
    have hpart : Text.slice? (before ++ written (i :: l)) before.size
        (before.size + i.text.size) = some i.text :=
      Text.slice?_eq_some_iff.2 ⟨before, written l, rfl, rfl, rfl⟩
    cases i with
    | char c => exact hrest.of_slice? hpart
    | statement body =>
      exact ⟨⟨[], Text.slice?_eq_some_iff.2 ⟨before, _, rfl, rfl, rfl⟩⟩, ⟨_, hpart⟩, hrest⟩

theorem isSome_readFrom? {rules : Rules} {doc : Document} : ∀ {found : List Sighting} {r : Reading},
    Laid doc.text r.cursor (found.map Sighting.span) → (readFrom? rules doc r found).isSome
  | [], r, h => by
    obtain ⟨tail, htail⟩ := h
    rw [readFrom?, htail]
    rfl
  | s :: rest, r, h => by
    obtain ⟨⟨gap, hgap⟩, ⟨part, hpart⟩, hrest⟩ := h
    rw [readFrom?]
    split
    · split
      · rename_i arg _
        rw [hgap, Option.bind_some]
        split
        · rename_i next hnext
          have hcursor : next.cursor = s.span.stop := Reading.cursor_of_shape hnext
          rw [← hcursor] at hrest
          exact isSome_readFrom? hrest
        · rfl
      · rfl
    · -- The cursor stays in front of a statement that shapes nothing.
      exact isSome_readFrom? ((hrest.of_slice? hpart).of_slice? hgap)

theorem isSome_fillFrom? {scope : Scope} {file : Path} {sectionName t : Text} :
    ∀ {found : List Sighting} {cursor : Nat}, Laid t cursor (found.map Sighting.span) →
      (fillFrom? scope file sectionName t cursor found).isSome
  | [], cursor, h => by
    obtain ⟨tail, htail⟩ := h
    rw [fillFrom?, htail]
    rfl
  | s :: rest, cursor, h => by
    obtain ⟨⟨gap, hgap⟩, ⟨part, hpart⟩, hrest⟩ := h
    have htail : (fillFrom? scope file sectionName t s.span.stop rest).isSome :=
      isSome_fillFrom? hrest
    obtain ⟨r, hr⟩ := Option.isSome_iff_exists.1 htail
    rw [fillFrom?, hgap, hpart, hr]
    cases s.value scope <;> rfl

/-! ## The same answers -/

theorem isOpening_sighting (s : Statement) : (s.sighting splitWords).isOpening = s.isOpening :=
  rfl

theorem isShaping_sighting (s : Statement) : ((s.sighting splitWords).isOpening ||
    (s.sighting splitWords).isInherit) = s.isShaping :=
  Bool.or_comm ..

namespace Reading

/-- What becomes of a document of which the text `lead` and the cuts behind it are still
ahead. -/
def complete (rules : Rules) (path : Path) (r : Reading) (lead : Text) (cuts : List Cut) :
    Except SegmentError Segmented :=
  match firstFault? rules.strictFill r.parent.isSome cuts with
  | some fault => .error ⟨path, fault⟩
  | none =>
    let parent := r.parent.or ((parentTarget? cuts).map fun target => rules.root.join ⟨target⟩)
    let opened := r.current.map fun s => (s.1, s.2 ++ (lead ++ textToOpening cuts))
    let sections := r.sections.extend (opened.toList ++ namedSections cuts)
    if (r.openedAny = false ∧ namedSections cuts = []) ∨ parent = none then
      .ok ⟨parent, sections.insert anonymous (r.body ++ (lead ++ cuts.flatMap Cut.text))⟩
    else .ok ⟨parent, sections⟩

section

variable {rules : Rules} {path : Path} {r : Reading}

theorem complete_start (doc : Document) :
    start.complete rules doc.path (cutAtMarks (items doc.text)).1 (cutAtMarks (items doc.text)).2 =
      segment rules doc := by
  cases hfault : firstFault? rules.strictFill false (cutAtMarks (items doc.text)).2 with
  | none =>
    simp only [complete, start, segment, hfault, Dict.ofList, Option.isSome_none, Option.none_or,
      Option.map_none, Option.toList_none, List.nil_append, true_and]
  | some fault => simp only [complete, start, segment, hfault, Option.isSome_none]

theorem complete_nil (lead : Text) (cursor : Nat) :
    r.complete rules path lead [] = .ok (r.pass lead cursor).finish := by
  obtain ⟨c, parent, sections, body, _ | ⟨name, text⟩, openedAny⟩ := r <;> cases parent <;>
    cases openedAny <;>
    simp [complete, firstFault?, parentTarget?, textToOpening, namedSections, finish, closed,
      pass, Dict.extend]

/-- A text that was passed is no longer ahead. -/
theorem complete_pass (front lead : Text) (cursor : Nat) (cuts : List Cut) :
    (r.pass front cursor).complete rules path lead cuts =
      r.complete rules path (front ++ lead) cuts := by
  simp [complete, pass, Function.comp_def]

theorem complete_misused (lead command text : Text) (got : Nat) (cuts : List Cut) :
    r.complete rules path lead (⟨.misused command got, text⟩ :: cuts) =
      .error ⟨path, .invalidArguments command got⟩ := rfl

/-- The cut that is next shapes what was read so far. -/
theorem complete_cons (s : Statement) (arg text : Text) (cuts : List Cut) :
    r.complete rules path []
        (⟨if s.isOpening then .opening arg else .inherit arg, text⟩ :: cuts) =
      match r.shape rules (s.sighting splitWords) arg with
      | .ok next => next.complete rules path text cuts
      | .error fault => .error ⟨path, fault⟩ := by
  obtain ⟨c, parent, sections, body, current, openedAny⟩ := r
  obtain ⟨root, strict⟩ := rules
  rw [shape, complete, firstFault?_cons, isOpening_sighting]
  cases s.isOpening with
  | true =>
    cases parent <;> cases strict <;> cases current <;>
      simp [Mark.fault?, Mark.target?, complete, parentTarget?, textToOpening, namedSections,
        closed, Dict.extend]
  | false =>
    cases parent <;>
      simp [Mark.fault?, Mark.target?, complete, parentTarget?, textToOpening, namedSections]

end

end Reading

/-- A statement with the words of its body. -/
theorem value_sighting (scope : Scope) (s : Statement) :
    (s.sighting splitWords).value scope = substitute scope s.body := by
  unfold Sighting.value Statement.sighting substitute
  cases splitWords s.body with
  | nil => rfl
  | cons command args =>
    by_cases hc : command = slotCommand
    · rcases args with _ | ⟨name, _ | ⟨b, args⟩⟩
      · simp [hc]
      · cases hg : scope.get? name <;> simp [hc, hg]
      · simp [hc]
    · simp [hc]

/-- What a shaping statement asks for, by the number of its arguments. -/
theorem mark?_of_isShaping {s : Statement} (h : s.isShaping = true) :
    (∃ arg, s.args = [arg] ∧
      mark? s.body = some (if s.isOpening then .opening arg else .inherit arg)) ∨
    (∀ arg, s.args ≠ [arg]) ∧ mark? s.body = some (.misused s.command s.args.length) := by
  rw [Statement.mark?_body]
  rw [Statement.isShaping, Bool.or_eq_true] at h
  rcases hargs : s.args with _ | ⟨arg, _ | ⟨second, more⟩⟩
  · rcases h with h | h <;> simp [h]
  · refine Or.inl ⟨arg, rfl, ?_⟩
    by_cases hi : s.isInherit = true
    · have ho : ¬s.isOpening = true := fun ho => by
        rw [Statement.not_isInherit_of_isOpening ho] at hi
        cases hi
      rw [if_pos hi, if_neg ho]
    · rw [if_neg hi, if_pos (h.resolve_left hi), if_pos (h.resolve_left hi)]
  · rcases h with h | h <;> simp [h]

section

variable {rules : Rules} {doc : Document} {r : Reading} {s : Statement} {rest : List Sighting}

theorem readFrom?_plain (h : s.isShaping = false) :
    readFrom? rules doc r (s.sighting splitWords :: rest) = readFrom? rules doc r rest := by
  rw [readFrom?, isShaping_sighting, h]
  rfl

theorem readFrom?_misused (h : s.isShaping = true) (hargs : ∀ arg, s.args ≠ [arg]) :
    readFrom? rules doc r (s.sighting splitWords :: rest) =
      some (.error ⟨doc.path, .invalidArguments s.command s.args.length⟩) := by
  rw [readFrom?, isShaping_sighting, if_pos h]
  split
  · rename_i arg harg
    exact absurd harg (hargs arg)
  · rfl

theorem readFrom?_shaping {arg front : Text} (h : s.isShaping = true) (hargs : s.args = [arg])
    (hfront : doc.text.slice? r.cursor s.start = some front) :
    readFrom? rules doc r (s.sighting splitWords :: rest) =
      match (r.pass front s.stop).shape rules (s.sighting splitWords) arg with
      | .ok next => readFrom? rules doc next rest
      | .error fault => some (.error ⟨doc.path, fault⟩) := by
  have hslice : doc.text.slice? r.cursor (s.sighting splitWords).span.start = some front := hfront
  have hwords : (s.sighting splitWords).args = [arg] := hargs
  rw [readFrom?, isShaping_sighting, if_pos h, hwords]
  simp only [hslice, Option.bind_some]
  rfl

end

/-! ### A statement behind text that was gone past but not yet copied -/

section

variable (before pending : Text)

/-- An item belongs to the text that is pending, once it is gone past. -/
theorem append_pending (i : Item) (l : List Item) :
    before ++ ((pending ++ i.text) ++ written l) = before ++ (pending ++ written (i :: l)) := by
  rw [written_cons, List.append_assoc]

theorem slice?_pending (rest : Text) :
    Text.slice? (before ++ (pending ++ rest)) before.size (before ++ pending).size =
      some pending :=
  Text.slice?_eq_some_iff.2 ⟨before, rest, rfl, rfl, (Text.size_append before pending).symm⟩

theorem slice?_behind_pending (body : Text) (l : List Item) :
    Text.slice? (before ++ (pending ++ written (.statement body :: l)))
        (Statement.start ⟨body, (before ++ pending).size⟩)
        (Statement.stop ⟨body, (before ++ pending).size⟩) = some (delimited body) := by
  refine Text.slice?_eq_some_iff.2 ⟨before ++ pending, written l, ?_, rfl, rfl⟩
  rw [← append_pending, Item.text, List.append_assoc, List.append_assoc]

theorem size_append_pending (u : Text) :
    (before ++ (pending ++ u)).size = (before ++ pending).size + u.size := by
  rw [← List.append_assoc, Text.size_append]

/-- Once a statement is copied, nothing is pending behind it. -/
theorem append_statement (body : Text) (l : List Item) :
    (before ++ (pending ++ delimited body)) ++ ([] ++ written l) =
      before ++ (pending ++ written (.statement body :: l)) := by
  rw [← append_pending, List.append_assoc]
  rfl

end

/-- The statements behind the text `pending`, which was gone past but not yet copied, are read
like the cuts of the items that they are among. -/
theorem readFrom?_eq (rules : Rules) (path : Path) (l : List Item) : ∀ (before pending : Text)
    (r : Reading), r.cursor = before.size →
      readFrom? rules ⟨path, before ++ (pending ++ written l)⟩ r
          ((locate (before ++ pending).size l).map (Statement.sighting splitWords)) =
        some (r.complete rules path (pending ++ (cutAtMarks l).1) (cutAtMarks l).2) := by
  induction l with
  | nil =>
    intro before pending r hr
    have hslice := slice?_pending before pending []
    rw [List.append_nil] at hslice
    rw [written_nil, List.append_nil, locate, List.map_nil, readFrom?, hr, hslice,
      Option.map_some, cutAtMarks, List.append_nil, Reading.complete_nil]
  | cons i l ih =>
    intro before pending r hr
    -- An item that shapes nothing is pending, too.
    have hplain : i.mark? = none →
        readFrom? rules ⟨path, before ++ (pending ++ written (i :: l))⟩ r
            ((locate ((before ++ pending).size + i.text.size) l).map
              (Statement.sighting splitWords)) =
          some (r.complete rules path (pending ++ (cutAtMarks (i :: l)).1)
            (cutAtMarks (i :: l)).2) := by
      intro hm
      have hrest := ih before (pending ++ i.text) r hr
      rw [append_pending, List.append_assoc, size_append_pending] at hrest
      rwa [cutAtMarks_of_plain hm]
    cases i with
    | char c => exact hplain rfl
    | statement body =>
      rw [locate, List.map_cons]
      have hmark : (Item.statement body).mark? =
          mark? (Statement.body ⟨body, (before ++ pending).size⟩) := rfl
      cases hshape : Statement.isShaping ⟨body, (before ++ pending).size⟩ with
      | false =>
        rw [readFrom?_plain hshape]
        refine hplain ?_
        rw [hmark, ← Option.isNone_iff_eq_none, ← Option.isSome_eq_false_iff,
          Statement.isSome_mark?, hshape]
      | true =>
        rcases mark?_of_isShaping hshape with ⟨arg, hargs, hm⟩ | ⟨hargs, hm⟩
        · have hfront := slice?_pending before pending (written (.statement body :: l))
          rw [← hr] at hfront
          rw [readFrom?_shaping hshape hargs hfront, cutAtMarks_of_mark? (hmark.trans hm),
            ← Reading.complete_pass pending [] (Statement.stop ⟨body, (before ++ pending).size⟩),
            Reading.complete_cons]
          cases hnext : (r.pass pending _).shape rules _ arg with
          | error fault => rfl
          | ok next =>
            have hcursor : next.cursor = (before ++ (pending ++ delimited body)).size := by
              rw [Reading.cursor_of_shape hnext, size_append_pending]
              rfl
            have hrest := ih (before ++ (pending ++ delimited body)) [] next hcursor
            rwa [append_statement, List.append_nil, size_append_pending] at hrest
        · rw [readFrom?_misused hshape hargs, cutAtMarks_of_mark? (hmark.trans hm),
            Reading.complete_misused]

/-- The statements behind the text `pending` are replaced like the items that they are among. -/
theorem fillFrom?_eq (scope : Scope) (file : Path) (sectionName : Text) (l : List Item) :
    ∀ before pending : Text,
      fillFrom? scope file sectionName (before ++ (pending ++ written l)) before.size
          ((locate (before ++ pending).size l).map (Statement.sighting splitWords)) =
        some (pending ++ (resolveItems scope l).1,
          (resolveItems scope l).2.map fun (statement, kind) =>
            ⟨file, sectionName, statement, kind⟩) := by
  induction l with
  | nil =>
    intro before pending
    have hslice := slice?_pending before pending []
    rw [List.append_nil] at hslice
    rw [written_nil, List.append_nil, locate, List.map_nil, fillFrom?, hslice, Option.map_some,
      resolveItems, List.append_nil]
    rfl
  | cons i l ih =>
    intro before pending
    cases i with
    | char c =>
      have hrest := ih before (pending ++ Item.text (.char c))
      rw [append_pending, List.append_assoc, size_append_pending] at hrest
      exact hrest
    | statement body =>
      have hgap := slice?_pending before pending (written (.statement body :: l))
      have hpart := slice?_behind_pending before pending body l
      have hrest := ih (before ++ (pending ++ delimited body)) []
      have hvalue := value_sighting scope ⟨body, (before ++ pending).size⟩
      rw [append_statement, List.append_nil, size_append_pending] at hrest
      rw [locate, List.map_cons, fillFrom?, hvalue, resolveItems]
      simp only [Statement.sighting, Statement.span, Option.bind_eq_bind] at hgap hpart hrest ⊢
      rw [hgap, Option.bind_some, hpart, Option.bind_some, Statement.stop, Statement.text, hrest]
      cases substitute scope body <;> simp

theorem scanFrom?_tokens (t : Text) :
    scanFrom? tokens t 0 = some ((scan t).map (Statement.sighting splitWords)) :=
  scanFrom?_eq wordsAt?_tokens [] t

theorem segmentAt?_tokens (rules : Rules) (path : Path) (t : Text) :
    segmentAt? tokens rules ⟨path, t⟩ = some (segment rules ⟨path, t⟩) := by
  have hread := readFrom?_eq rules path (items t) [] [] .start rfl
  rw [List.nil_append, List.nil_append, written_items, List.nil_append] at hread
  rw [segmentAt?, scanFrom?_tokens, Option.bind_some, ← Reading.complete_start]
  exact hread

theorem resolveAt?_tokens (scope : Scope) (file : Path) (sectionName t : Text) :
    resolveAt? tokens scope file sectionName t = some (resolveText scope file sectionName t) := by
  have hfill := fillFrom?_eq scope file sectionName (items t) [] []
  rw [List.nil_append, List.nil_append, written_items, List.nil_append] at hfill
  rw [resolveAt?, scanFrom?_tokens, Option.bind_some]
  exact hfill

/-! ## No slice fails -/

/-- What holds of a text that is scanned, segmented and resolved by byte offsets, where `lexer`
cuts the bodies of statements into tokens. -/
structure SlicesAnswered (lexer : Text → List Token) (t : Text) : Prop where
  /-- The cursor of the scanner moves forward, and after as many turns as there are bytes it is
  at the end. -/
  turns : ∀ cursors : List Nat, cursors.IsChain (Advances lexer t) →
    cursors.Pairwise (· < ·) ∧ cursors.length ≤ t.size + 1
  /-- The scanner finds the statements of the text, and they are not many. -/
  scanned : ∃ found, scanFrom? lexer t 0 = some found ∧
    found.map Sighting.span = (scan t).map Statement.span ∧ found.length ≤ t.size / 4
  worded : ∀ body, (wordsAt? body (lexer body)).isSome
  segmented : ∀ rules path, (segmentAt? lexer rules ⟨path, t⟩).isSome
  resolved : ∀ scope file sectionName, (resolveAt? lexer scope file sectionName t).isSome

theorem slicesAnswered_of_fits {lexer : Text → List Token} (h : ∀ body, Fits body (lexer body))
    (t : Text) : SlicesAnswered lexer t := by
  have hworded : ∀ body, (wordsAt? body (lexer body)).isSome := fun body =>
    isSome_wordsAt? (h body)
  have hwords : ∀ body, wordsAt? body (lexer body) =
      some ((wordsAt? body (lexer body)).get (hworded body)) := fun body =>
    (Option.some_get _).symm
  have hscan : scanFrom? lexer t 0 = some ((scan t).map
      (Statement.sighting fun body => (wordsAt? body (lexer body)).get (hworded body))) :=
    scanFrom?_eq hwords [] t
  have hlaid : Laid t 0 (((scan t).map (Statement.sighting fun body =>
      (wordsAt? body (lexer body)).get (hworded body))).map Sighting.span) := by
    have hlocate := laid_locate (items t) []
    rw [List.nil_append, written_items] at hlocate
    rw [List.map_map]
    exact hlocate
  refine ⟨fun cursors hchain => ⟨pairwise_of_isChain hchain, ?_⟩, ⟨_, hscan, ?_, ?_⟩, hworded,
    fun rules path => ?_, fun scope file sectionName => ?_⟩
  · cases cursors with
    | nil => exact Nat.zero_le _
    | cons c cursors =>
      have hlength := length_le_of_isChain hchain
      rw [List.length_cons]
      omega
  · rw [List.map_map]
    rfl
  · have hfour := four_mul_length_scan_le t
    rw [List.length_map]
    omega
  · rw [segmentAt?, hscan, Option.bind_some]
    exact isSome_readFrom? hlaid
  · rw [resolveAt?, hscan, Option.bind_some]
    exact isSome_fillFrom? hlaid

/-- A slice is answered exactly between two boundaries, with a text that has the bytes between
them. If the tokens of every body fit it, scanning, splitting into words, segmentation and
resolution ask for no other slices, and the scanner comes to an end. With the longest tokens
they answer what the functions answer that go through a text by characters. -/
theorem slices_answered {lexer : Text → List Token} (h : ∀ body, Fits body (lexer body))
    (t : Text) :
    (∀ (u : Text) (start stop : Nat),
      (u.slice? start stop).isSome ↔ Sliceable u.utf8 start stop) ∧
    (∀ (u part : Text) (start stop : Nat), u.slice? start stop = some part →
      part.bytes = u.bytes.extract start stop ∧ (u.bytes.extract start stop).IsValidUTF8) ∧
    SlicesAnswered lexer t ∧
    scanFrom? tokens t 0 = some ((scan t).map (Statement.sighting splitWords)) ∧
    (∀ body, wordsAt? body (tokens body) = some (splitWords body)) ∧
    (∀ rules path, segmentAt? tokens rules ⟨path, t⟩ = some (segment rules ⟨path, t⟩)) ∧
    ∀ scope file sectionName, resolveAt? tokens scope file sectionName t =
      some (resolveText scope file sectionName t) := by
  refine ⟨fun u start stop => Text.isSome_slice?_iff, fun u part start stop hpart => ?_,
    slicesAnswered_of_fits h t, scanFrom?_tokens t, wordsAt?_tokens,
    fun rules path => segmentAt?_tokens rules path t,
    fun scope file sectionName => resolveAt?_tokens scope file sectionName t⟩
  have hbytes := Text.bytes_of_slice? hpart
  exact ⟨hbytes, hbytes ▸ part.isValidUTF8_bytes⟩

/-- Statements between characters of two, three and four bytes, one of them with such
characters between its quotes. -/
def accented : Text :=
  "é$<fill \"ü €\">$ß$<\n𝄞$<slot x>$".toList

theorem slices_answered_accented : (∀ body, Fits body (tokens body)) ∧
    SlicesAnswered tokens accented ∧
    scanFrom? tokens accented 0 = some [⟨"fill".toList, ["ü €".toList], ⟨2, 19⟩⟩,
      ⟨"slot".toList, ["x".toList], ⟨28, 38⟩⟩] := by
  obtain ⟨-, -, hanswered, hscan, -⟩ := slices_answered fits_tokens accented
  refine ⟨fits_tokens, hanswered, hscan.trans ?_⟩
  cbv

end Folio
