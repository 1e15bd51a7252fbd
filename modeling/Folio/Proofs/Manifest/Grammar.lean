import Mathlib
import Folio.Manifest
import Folio.Proofs.Text.Fields

/-!
# The grammar of manifests

`Says` is the grammar of one line, without the parser : the line says nothing, maps an
input to an output, or is skipped. `Parses` holds of the manifest that collects what the
lines of a text say, under their numbers and in their order.

`ofText_grammar` : every line says exactly one thing, `Manifest.ofText` answers the only
manifest that a text parses to, texts are parsed piece by piece, and the entries of a
manifest can be printed and are parsed again.
-/

namespace Folio.Manifest

/-- Whether a line has three fields, and which texts fill them. -/
def Fields (line input mode output : Text) : Prop :=
  ∃ a b c : Text, line = a ++ '>' :: (b ++ '>' :: c) ∧ ('>' ∉ a ∧ '>' ∉ b ∧ '>' ∉ c) ∧
    (a.Trims input ∧ b.Trims mode ∧ c.Trims output) ∧ input ≠ [] ∧ mode ≠ [] ∧ output ≠ []

theorem Fields.ne_nil {line input mode output : Text} (h : Fields line input mode output) :
    line ≠ [] := by
  obtain ⟨a, b, c, rfl, -⟩ := h
  simp

/-- What a line says. -/
inductive Says (number : Nat) (raw : Text) : Line → Prop
  | blank (h : raw.Trims []) : Says number raw .silent
  | comment {rest : Text} (h : raw.Trims ('#' :: rest)) : Says number raw .silent
  | entry {line input field output : Text} {mode : EntryMode} (h : raw.Trims line)
      (hcomment : line.head? ≠ some '#') (hfields : Fields line input field output)
      (hmode : mode = .template ↔ field = ['$']) :
      Says number raw (.entry ⟨⟨input⟩, mode, ⟨output⟩, number⟩)
  | skipped {line : Text} (h : raw.Trims line) (hblank : line ≠ [])
      (hcomment : line.head? ≠ some '#')
      (hfields : ∀ input field output, ¬Fields line input field output) :
      Says number raw (.skipped ⟨number, line⟩)

/-- Whether a manifest collects what the lines of a text say. The lines are what stands
between the newlines, and are counted from one. A carriage return before a newline is a
blank. -/
structure Parses (content : Text) (m : Manifest) : Prop where
  entries : ∀ e, e ∈ m.entries ↔ ∃ k raw, (content.splitOn '\n')[k]? = some raw ∧
    Says (k + 1) raw (.entry e)
  skipped : ∀ s, s ∈ m.skipped ↔ ∃ k raw, (content.splitOn '\n')[k]? = some raw ∧
    Says (k + 1) raw (.skipped s)
  entries_lt : m.entries.Pairwise (·.line < ·.line)
  skipped_lt : m.skipped.Pairwise (·.line < ·.line)

/-! ## One line -/

theorem splitOn_eq_three_iff {line a b c : Text} :
    line.splitOn '>' = [a, b, c] ↔
      line = a ++ '>' :: (b ++ '>' :: c) ∧ '>' ∉ a ∧ '>' ∉ b ∧ '>' ∉ c := by
  rw [Text.splitOn_eq_iff (by simp)]
  have hjoined : ['>'].intercalate [a, b, c] = a ++ '>' :: (b ++ '>' :: c) := by
    simp [List.intercalate]
  rw [hjoined, and_comm, eq_comm]
  simp

/-- The fields of a line are the trimmed texts between its separators. -/
theorem map_trim_splitOn_iff {line input field output : Text} :
    (line.splitOn '>').map Text.trim = [input, field, output] ∧
        input ≠ [] ∧ field ≠ [] ∧ output ≠ [] ↔ Fields line input field output := by
  constructor
  · rintro ⟨hmap, hfilled⟩
    obtain ⟨a, rest, hsplit, ha, hrest⟩ := List.map_eq_cons_iff.1 hmap
    obtain ⟨b, rest, rfl, hb, hrest⟩ := List.map_eq_cons_iff.1 hrest
    obtain ⟨c, rest, rfl, hc, hrest⟩ := List.map_eq_cons_iff.1 hrest
    obtain rfl := List.map_eq_nil_iff.1 hrest
    obtain ⟨hline, hplain⟩ := splitOn_eq_three_iff.1 hsplit
    exact ⟨a, b, c, hline, hplain,
      ⟨Text.trim_eq_iff.1 ha, Text.trim_eq_iff.1 hb, Text.trim_eq_iff.1 hc⟩, hfilled⟩
  · rintro ⟨a, b, c, hline, hplain, ⟨ha, hb, hc⟩, hfilled⟩
    refine ⟨?_, hfilled⟩
    rw [splitOn_eq_three_iff.2 ⟨hline, hplain⟩, List.map_cons, List.map_cons, List.map_cons,
      Text.trim_eq_iff.2 ha, Text.trim_eq_iff.2 hb, Text.trim_eq_iff.2 hc, List.map_nil]

theorem modeOf_eq_iff {field : Text} {mode : EntryMode} :
    modeOf field = mode ↔ (mode = .template ↔ field = ['$']) := by
  unfold modeOf
  cases mode <;> by_cases h : field = ['$'] <;> simp [h]

theorem says_readLine (number : Nat) (raw : Text) : Says number raw (readLine number raw) := by
  have htrims := Text.trims_trim raw
  unfold readLine
  generalize raw.trim = line at htrims
  simp only
  split
  · rename_i hsilent
    rcases hsilent with rfl | hcomment
    · exact .blank htrims
    · obtain ⟨rest, rfl⟩ := List.head?_eq_some_iff.1 hcomment
      exact .comment htrims
  · rename_i hspeaks
    obtain ⟨hblank, hcomment⟩ := not_or.1 hspeaks
    split
    · rename_i input field output hmap
      split
      · rename_i hempty
        refine .skipped htrims hblank hcomment fun i f o hfields => ?_
        obtain ⟨hmap', hi, hf, ho⟩ := map_trim_splitOn_iff.2 hfields
        cases hmap.symm.trans hmap'
        exact hempty.elim hi fun h => h.elim hf ho
      · rename_i hfilled
        rw [not_or, not_or] at hfilled
        exact .entry htrims hcomment (map_trim_splitOn_iff.1 ⟨hmap, hfilled⟩) (modeOf_eq_iff.1 rfl)
    · rename_i hcount
      refine .skipped htrims hblank hcomment fun i f o hfields => ?_
      exact hcount i f o (map_trim_splitOn_iff.2 hfields).1

/-- The grammar leaves a line nothing else to say. -/
theorem Says.readLine_eq {number : Nat} {raw : Text} {line : Line} (h : Says number raw line) :
    readLine number raw = line := by
  unfold readLine
  cases h with
  | blank h => simp [Text.trim_of_trims h]
  | comment h => simp [Text.trim_of_trims h]
  | entry h hcomment hfields hmode =>
    obtain ⟨hmap, hi, hf, ho⟩ := map_trim_splitOn_iff.2 hfields
    have hblank := hfields.ne_nil
    simp [Text.trim_of_trims h, hblank, hcomment, hmap, hi, hf, ho, modeOf_eq_iff.2 hmode]
  | @skipped line h hblank hcomment hfields =>
    rw [Text.trim_of_trims h]
    simp only
    rw [if_neg (not_or.2 ⟨hblank, hcomment⟩)]
    split
    · rename_i input field output hmap
      refine if_pos (Classical.byContradiction fun hfilled => ?_)
      rw [not_or, not_or] at hfilled
      exact hfields input field output (map_trim_splitOn_iff.1 ⟨hmap, hfilled⟩)
    · rfl

theorem readLine_eq_iff {number : Nat} {raw : Text} {line : Line} :
    readLine number raw = line ↔ Says number raw line :=
  ⟨fun h => h ▸ says_readLine number raw, Says.readLine_eq⟩

theorem readLine_nil (number : Nat) : readLine number [] = .silent :=
  (Says.blank (Text.IsTrimmed.trims (by simp [Text.IsTrimmed]))).readLine_eq

/-! ## All lines -/

/-- One manifest and then another one. -/
def append (m later : Manifest) : Manifest :=
  ⟨m.entries ++ later.entries, m.skipped ++ later.skipped⟩

/-- What a line says when it stands `k` lines further down. -/
def Line.shift (k : Nat) : Line → Line
  | .silent => .silent
  | .entry e => .entry { e with line := e.line + k }
  | .skipped s => .skipped { s with line := s.line + k }

/-- A manifest whose lines stand `k` lines further down. -/
def shift (k : Nat) (m : Manifest) : Manifest :=
  ⟨m.entries.map fun e => { e with line := e.line + k },
    m.skipped.map fun s => { s with line := s.line + k }⟩

/-- The entry that a line says. -/
def Line.mapped? : Line → Option Entry
  | .entry e => some e
  | _ => none

/-- The line that is skipped. -/
def Line.skipped? : Line → Option SkippedLine
  | .skipped s => some s
  | _ => none

theorem Line.mapped?_eq_some_iff {line : Line} {e : Entry} :
    line.mapped? = some e ↔ line = .entry e := by
  cases line <;> simp [mapped?]

theorem Line.skipped?_eq_some_iff {line : Line} {s : SkippedLine} :
    line.skipped? = some s ↔ line = .skipped s := by
  cases line <;> simp [skipped?]

theorem readLines_eq (number : Nat) (l : List Text) :
    readLines number l =
      ⟨(l.zipIdx number).filterMap fun p => (readLine p.2 p.1).mapped?,
        (l.zipIdx number).filterMap fun p => (readLine p.2 p.1).skipped?⟩ := by
  induction l generalizing number with
  | nil => rfl
  | cons raw rest ih =>
    rw [readLines, ih]
    cases h : readLine number raw <;> simp [h, Line.mapped?, Line.skipped?]

theorem readLines_append (number : Nat) (a b : List Text) :
    readLines number (a ++ b) = (readLines number a).append (readLines (number + a.length) b) := by
  simp only [readLines_eq, List.zipIdx_append, List.filterMap_append, append]

theorem readLine_add (k number : Nat) (raw : Text) :
    readLine (number + k) raw = (readLine number raw).shift k := by
  unfold readLine
  simp only
  split
  · rfl
  · split
    · split <;> rfl
    · rfl

theorem readLines_add (k number : Nat) (l : List Text) :
    readLines (number + k) l = (readLines number l).shift k := by
  induction l generalizing number with
  | nil => rfl
  | cons raw rest ih =>
    rw [readLines, readLines, readLine_add, Nat.add_right_comm, ih]
    cases readLine number raw <;> rfl

/-- A carriage return at the end of a line is a blank. -/
theorem readLines_map_dropReturn (number : Nat) (l : List Text) :
    readLines number (l.map Text.dropReturn) = readLines number l := by
  induction l generalizing number with
  | nil => rfl
  | cons raw rest ih =>
    have hraw : readLine number raw.dropReturn = readLine number raw := by
      rw [readLine, readLine, Text.trim_dropReturn]
    rw [List.map_cons, readLines, readLines, ih, hraw]

/-- The lines are what stands between the newlines : a text that ends in one has a blank
line behind it. -/
theorem ofText_eq (content : Text) : ofText content = readLines 1 (content.splitOn '\n') := by
  obtain ⟨front, last, hparts⟩ :=
    (List.eq_nil_or_concat (content.splitOn '\n')).resolve_left (List.splitOn_ne_nil '\n' content)
  rw [ofText, Text.lines]
  simp only [hparts, List.concat_eq_append, List.dropLast_concat, List.getLast?_concat]
  cases last with
  | nil =>
    rw [readLines_map_dropReturn, readLines_append, readLines, readLine_nil]
    simp [append, readLines]
  | cons c last =>
    rw [readLines_append, readLines_append, readLines_map_dropReturn, List.length_map]

theorem ofText_append_newline (a b : Text) :
    ofText (a ++ '\n' :: b) = (ofText a).append ((ofText b).shift (a.count '\n' + 1)) := by
  rw [ofText_eq, ofText_eq, ofText_eq, List.splitOn_append_cons_self, readLines_append,
    Text.length_splitOn, readLines_add]

/-! ## The only manifest of a text -/

section

variable {α : Type} {f : Text × Nat → Option α} {line : α → Nat}

theorem mem_numbered (l : List Text) (x : α) :
    x ∈ (l.zipIdx 1).filterMap f ↔ ∃ k raw, l[k]? = some raw ∧ f (raw, k + 1) = some x := by
  rw [List.mem_filterMap]
  constructor
  · rintro ⟨⟨raw, i⟩, hmem, hx⟩
    obtain ⟨hi, hraw⟩ := List.mk_mem_zipIdx_iff_le_and_getElem?_sub.1 hmem
    exact ⟨i - 1, raw, hraw, by rwa [Nat.sub_add_cancel hi]⟩
  · rintro ⟨k, raw, hraw, hx⟩
    exact ⟨(raw, k + 1), List.mk_mem_zipIdx_iff_le_and_getElem?_sub.2 ⟨by omega, hraw⟩, hx⟩

theorem pairwise_numbered (hline : ∀ p x, f p = some x → line x = p.2) (l : List Text) :
    ((l.zipIdx 1).filterMap f).Pairwise fun x y => line x < line y := by
  have hnumbers : (l.zipIdx 1).Pairwise fun p q => p.2 < q.2 := by
    have hrange : ((l.zipIdx 1).map Prod.snd).Pairwise (· < ·) := by
      rw [List.zipIdx_map_snd]
      exact List.pairwise_lt_range'
    exact List.pairwise_map.1 hrange
  refine hnumbers.filterMap f fun p q hlt x hx y hy => ?_
  rwa [hline p x hx, hline q y hy]

/-- Two lists in the order of their lines that hold the same are the same. -/
theorem eq_of_mem_iff_of_lt {l m : List α} (hl : l.Pairwise fun x y => line x < line y)
    (hm : m.Pairwise fun x y => line x < line y) (h : ∀ x, x ∈ l ↔ x ∈ m) : l = m := by
  have : Std.Irrefl fun x y : α => line x < line y := ⟨fun x => Nat.lt_irrefl (line x)⟩
  have : Std.Antisymm fun x y : α => line x < line y :=
    ⟨fun x y hxy hyx => absurd hxy (Nat.lt_asymm hyx)⟩
  exact hl.eq_of_mem_iff hm h

end

theorem line_of_mapped? {number : Nat} {raw : Text} {e : Entry}
    (h : (readLine number raw).mapped? = some e) : e.line = number := by
  cases readLine_eq_iff.1 (Line.mapped?_eq_some_iff.1 h)
  rfl

theorem line_of_skipped? {number : Nat} {raw : Text} {s : SkippedLine}
    (h : (readLine number raw).skipped? = some s) : s.line = number := by
  cases readLine_eq_iff.1 (Line.skipped?_eq_some_iff.1 h)
  rfl

theorem parses_ofText (content : Text) : Parses content (ofText content) := by
  rw [ofText_eq, readLines_eq]
  refine ⟨fun e => ?_, fun s => ?_, pairwise_numbered (fun p e => line_of_mapped?) _,
    pairwise_numbered (fun p s => line_of_skipped?) _⟩
  · rw [mem_numbered]
    simp only [Line.mapped?_eq_some_iff, readLine_eq_iff]
  · rw [mem_numbered]
    simp only [Line.skipped?_eq_some_iff, readLine_eq_iff]

/-- A text parses to one manifest. -/
theorem parses_iff {content : Text} {m : Manifest} :
    Parses content m ↔ ofText content = m := by
  constructor
  · intro h
    have hparsed := parses_ofText content
    have hentries : (ofText content).entries = m.entries :=
      eq_of_mem_iff_of_lt hparsed.entries_lt h.entries_lt fun e =>
        (hparsed.entries e).trans (h.entries e).symm
    have hskipped : (ofText content).skipped = m.skipped :=
      eq_of_mem_iff_of_lt hparsed.skipped_lt h.skipped_lt fun s =>
        (hparsed.skipped s).trans (h.skipped s).symm
    cases m
    cases hentries
    cases hskipped
    rfl
  · rintro rfl
    exact parses_ofText content

/-! ## Printing -/

/-- Whether a text is found again when it is printed as a field. -/
structure IsField (t : Text) : Prop where
  ne_nil : t ≠ []
  trimmed : t.IsTrimmed
  plain : '>' ∉ t
  single : '\n' ∉ t

/-- A field for a mode. Only one text names the mode `template`, and all others that are
fields name the mode `copy`. -/
def ModeField (mode : EntryMode) : Type :=
  { t : Text // IsField t ∧ (mode = .template ↔ t = ['$']) }

/-- An entry as a line. -/
def printedEntry (e : Entry) (field : ModeField e.mode) : Text :=
  e.input.text ++ (" > ".toList ++ field.1 ++ " > ".toList ++ e.output.text)

/-- Entries as a text, one line each. -/
def printed (field : ∀ e : Entry, ModeField e.mode) (l : List Entry) : Text :=
  l.flatMap fun e => printedEntry e (field e) ++ ['\n']

/-- Whether an entry is found again when it is printed as a line. -/
structure Printable (e : Entry) : Prop where
  input : IsField e.input.text
  output : IsField e.output.text
  comment : e.input.text.head? ≠ some '#'

/-- An entry that stands on a line can be printed as one. -/
theorem Says.printable {number : Nat} {raw : Text} {e : Entry}
    (h : Says number raw (.entry e)) (hraw : '\n' ∉ raw) : Printable e := by
  cases h with
  | @entry line input field output mode h hcomment hfields =>
    obtain ⟨a, b, c, rfl, ⟨ha, -, hc⟩, ⟨hinput, -, houtput⟩, hi, -, ho⟩ := hfields
    have hline : '\n' ∉ a ++ '>' :: (b ++ '>' :: c) := fun hm => hraw (h.subset hm)
    simp only [List.mem_append, List.mem_cons, not_or] at hline
    obtain ⟨hna, -, -, -, hnc⟩ := hline
    refine ⟨⟨hi, hinput.1, fun hm => ha (hinput.subset hm), fun hm => hna (hinput.subset hm)⟩,
      ⟨ho, houtput.1, fun hm => hc (houtput.subset hm), fun hm => hnc (houtput.subset hm)⟩, ?_⟩
    -- nothing stands in front of the input, for the line begins with no blank
    obtain ⟨-, front, back, rfl, hfront, -⟩ := hinput
    cases front with
    | nil =>
      intro hhead
      obtain ⟨rest, hrest⟩ := List.head?_eq_some_iff.1 hhead
      refine hcomment ?_
      simp only at hrest
      simp [hrest]
    | cons x front =>
      have hx : isBlank x = false := h.1.1 x (by simp)
      rw [hfront x List.mem_cons_self] at hx
      cases hx

theorem says_printedEntry {e : Entry} (h : Printable e) (field : ModeField e.mode)
    (number : Nat) : Says number (printedEntry e field) (.entry { e with line := number }) := by
  obtain ⟨⟨input⟩, mode, ⟨output⟩, line⟩ := e
  obtain ⟨field, hfield, hmode⟩ := field
  obtain ⟨hi, ho, hcomment⟩ := h
  have htrimmed : (input ++ (" > ".toList ++ field ++ " > ".toList ++ output)).IsTrimmed :=
    hi.trimmed.append hi.ne_nil ho.trimmed ho.ne_nil _
  have hhead : (input ++ (" > ".toList ++ field ++ " > ".toList ++ output)).head? = input.head? :=
    List.head?_append_of_ne_nil input hi.ne_nil
  have hblank : ∀ c ∈ [' '], isBlank c = true := by simp [isBlank]
  refine .entry htrimmed.trims (hhead ▸ hcomment) ?_ hmode
  refine ⟨input ++ [' '], [' '] ++ (field ++ [' ']), [' '] ++ (output ++ []), ?_, ?_, ?_,
    hi.ne_nil, hfield.ne_nil, ho.ne_nil⟩
  · simp
  · simp [hi.plain, hfield.plain, ho.plain]
  · exact ⟨hi.trimmed.trims.append_blank hblank, ⟨hfield.trimmed, _, _, rfl, hblank, hblank⟩,
      ho.trimmed, _, _, rfl, hblank, by simp⟩

theorem notMem_printedEntry {e : Entry} (h : Printable e) (field : ModeField e.mode) :
    '\n' ∉ printedEntry e field := by
  obtain ⟨t, ht, hmode⟩ := field
  simp [printedEntry, h.input.single, ht.single, h.output.single]

theorem ofText_printed (field : ∀ e : Entry, ModeField e.mode) {l : List Entry}
    (h : ∀ e ∈ l, Printable e) :
    ofText (printed field l) = ⟨(l.zipIdx 1).map fun p => { p.1 with line := p.2 }, []⟩ := by
  rw [ofText_eq]
  generalize 1 = number
  induction l generalizing number with
  | nil =>
    rw [printed, List.flatMap_nil, List.splitOn_nil, readLines, readLine_nil]
    rfl
  | cons e rest ih =>
    obtain ⟨he, hrest⟩ := List.forall_mem_cons.1 h
    have hcons : printed field (e :: rest) =
        printedEntry e (field e) ++ '\n' :: printed field rest := by
      simp [printed]
    rw [hcons, List.splitOn_append_cons_self, Text.splitOn_of_notMem (notMem_printedEntry he _),
      List.singleton_append, readLines, (says_printedEntry he _ number).readLine_eq,
      ih hrest]
    rfl

theorem printable_of_mem {content : Text} {e : Entry} (h : e ∈ (ofText content).entries) :
    Printable e := by
  obtain ⟨k, raw, hraw, hsays⟩ := ((parses_ofText content).entries e).1 h
  exact hsays.printable (Text.notMem_of_mem_splitOn (List.mem_of_getElem? hraw))

/-- Every line says exactly one thing, and a text parses to the manifest that `ofText`
answers and to no other. Texts that are joined by a newline are parsed each by itself.
Entries that are printed are parsed again, with new numbers and nothing skipped, whichever
fields name their modes. -/
theorem ofText_grammar :
    (∀ number raw, ∃! line, Says number raw line) ∧
      (∀ content m, Parses content m ↔ ofText content = m) ∧
      (∀ a b, ofText (a ++ '\n' :: b) =
        (ofText a).append ((ofText b).shift (a.count '\n' + 1))) ∧
      ∀ content (field : ∀ e : Entry, ModeField e.mode),
        ofText (printed field (ofText content).entries) =
          ⟨((ofText content).entries.zipIdx 1).map fun p => { p.1 with line := p.2 }, []⟩ := by
  refine ⟨fun number raw => ?_, fun content m => parses_iff, ofText_append_newline, ?_⟩
  · exact ⟨readLine number raw, says_readLine number raw, fun line h => h.readLine_eq.symm⟩
  · exact fun content field => ofText_printed field fun e => printable_of_mem

/-- The fields that manifests usually have for the modes. -/
def ModeField.usual : ∀ mode, ModeField mode
  | .template => ⟨['$'], ⟨by simp, by simp [Text.IsTrimmed, isBlank], by simp, by simp⟩, by simp⟩
  | .copy => ⟨['='], ⟨by simp, by simp [Text.IsTrimmed, isBlank], by simp, by simp⟩, by simp⟩

example : printed (fun e => .usual e.mode)
    (ofText "# pages\n a>$ > b\r\nx > y\nc > copied>d".toList).entries =
      "a > $ > b\nc > = > d\n".toList := by cbv

end Folio.Manifest
