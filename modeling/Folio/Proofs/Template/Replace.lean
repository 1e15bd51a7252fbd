import Mathlib
import Folio.Proofs.Statement.Places
import Folio.Proofs.Template.Resolve
import Folio.Proofs.Text.Slice

/-!
# What resolution does to a text

`resolveItems` builds the resolved text while it goes through the items. Here the text is
taken apart at its statements first. `Text.gaps?` lists the slices in front of, between and
behind them, and `weave` puts such gaps together again with something in the place of each
statement.

`resolveText_weave` : the gaps of a text stay, a bound slot is replaced, every other
statement stays and gives one warning.

`scan_resolve_lines` : the lines of a text are scanned and resolved each by itself.
-/

namespace Folio

namespace Statement

/-- What a slot with one argument is bound to. -/
def bound? (scope : Scope) (s : Statement) : Option Text :=
  match s.args with
  | [name] => if s.command = slotCommand then scope.get? name else none
  | _ => none

/-- The reason to leave a statement in place that is not bound. -/
def complaint (s : Statement) : WarningKind :=
  if s.command = slotCommand then
    match s.args with
    | [name] => .missingVariable name
    | args => .invalidArguments s.command args.length
  else .unknownCommand s.command

/-- What stands in the resolved text in place of a statement. -/
def resolved (scope : Scope) (s : Statement) : Text :=
  (s.bound? scope).getD s.text

/-- The warning about a statement that is left in place. -/
def warning (file : Path) (sectionName : Text) (s : Statement) : Warning :=
  ⟨file, sectionName, s.text, s.complaint⟩

end Statement

/-- The text in front of, between and behind some statements, from byte `start` on. -/
def Text.gaps? (t : Text) (start : Nat) : List Statement → Option (List Text)
  | [] => (t.slice? start t.size).map ([·])
  | s :: rest =>
    (t.slice? start s.start).bind fun gap => (t.gaps? s.stop rest).map (gap :: ·)

/-- Gaps with one part between neighbours. -/
def weave : List Text → List Text → Text
  | gap :: gaps, part :: parts => gap ++ (part ++ weave gaps parts)
  | gaps, [] => gaps.flatten
  | [], parts => parts.flatten

/-! ## One statement -/

/-- A statement is replaced by what it is bound to. -/
theorem substitute_body (scope : Scope) (s : Statement) :
    substitute scope s.body =
      match s.bound? scope with
      | some text => .ok text
      | none => .error s.complaint := by
  unfold substitute Statement.bound? Statement.complaint Statement.command Statement.args
  cases splitWords s.body with
  | nil => rfl
  | cons command args =>
    by_cases hc : command = slotCommand
    · rcases args with _ | ⟨name, _ | ⟨b, args⟩⟩
      · simp [hc]
      · cases hg : scope.get? name <;> simp [hc, hg]
      · simp [hc]
    · rcases args with _ | ⟨name, _ | ⟨b, args⟩⟩ <;> simp [hc]

theorem Item.resolved_body (scope : Scope) (s : Statement) :
    (Item.statement s.body).resolved scope = s.resolved scope := by
  rw [Item.resolved, substitute_body, Statement.resolved]
  cases s.bound? scope <;> rfl

theorem Item.left?_body (scope : Scope) (s : Statement) :
    (Item.statement s.body).left? scope =
      if (s.bound? scope).isNone then some (s.text, s.complaint) else none := by
  rw [Item.left?, substitute_body]
  cases s.bound? scope <;> rfl

/-! ## Gaps -/

/-- A text in front of some gaps belongs to the first of them. -/
theorem gaps?_of_slice? {t u gap : Text} {gaps : List Text} {start mid : Nat}
    {cuts : List Statement} (hu : t.slice? start mid = some u)
    (h : t.gaps? mid cuts = some (gap :: gaps)) :
    t.gaps? start cuts = some ((u ++ gap) :: gaps) := by
  cases cuts with
  | nil =>
    obtain ⟨v, hv, he⟩ := Option.map_eq_some_iff.1 h
    cases he
    rw [Text.gaps?, Text.slice?_trans hu hv, Option.map_some]
  | cons s rest =>
    obtain ⟨v, hv, hrest⟩ := Option.bind_eq_some_iff.1 h
    obtain ⟨gaps', hgaps, he⟩ := Option.map_eq_some_iff.1 hrest
    cases he
    rw [Text.gaps?, Text.slice?_trans hu hv, Option.bind_some, hgaps, Option.map_some]

theorem weave_cons_append (u gap : Text) (gaps parts : List Text) :
    weave ((u ++ gap) :: gaps) parts = u ++ weave (gap :: gaps) parts := by
  cases parts <;> simp [weave]

/-- A text that is written as some items is woven of its gaps, whatever is put in the place
of its statements. -/
theorem exists_gaps (l : List Item) : ∀ before : Text,
    ∃ gap gaps, (before ++ written l).gaps? before.size (locate before.size l) =
        some (gap :: gaps) ∧
      gaps.length = (locate before.size l).length ∧
      ∀ f : Item → Text, (∀ c, f (.char c) = [c]) →
        weave (gap :: gaps) ((locate before.size l).map fun s => f (.statement s.body)) =
          l.flatMap f := by
  induction l with
  | nil =>
    intro before
    have hslice : (before ++ written []).slice? before.size (before ++ written []).size =
        some [] :=
      Text.slice?_eq_some_iff.2 ⟨before, [], rfl, rfl, by simp⟩
    refine ⟨[], [], ?_, rfl, fun f _ => rfl⟩
    rw [locate, Text.gaps?, hslice, Option.map_some]
  | cons i l ih =>
    intro before
    have htext : before ++ written (i :: l) = (before ++ i.text) ++ written l := by
      rw [written_cons, List.append_assoc]
    obtain ⟨gap, gaps, hgaps, hlength, hweave⟩ := ih (before ++ i.text)
    rw [← htext, Text.size_append] at hgaps
    rw [Text.size_append] at hlength hweave
    cases i with
    | char c =>
      have hslice : (before ++ written (.char c :: l)).slice? before.size
          (before.size + Text.size [c]) = some [c] :=
        Text.slice?_eq_some_iff.2 ⟨before, written l, rfl, rfl, rfl⟩
      refine ⟨[c] ++ gap, gaps, gaps?_of_slice? hslice hgaps, hlength, fun f hf => ?_⟩
      rw [weave_cons_append, List.flatMap_cons, hf, ← hweave f hf]
      rfl
    | statement body =>
      have hslice : (before ++ written (.statement body :: l)).slice? before.size before.size =
          some [] :=
        Text.slice?_eq_some_iff.2 ⟨before, _, rfl, rfl, rfl⟩
      refine ⟨[], gap :: gaps, ?_, congrArg (· + 1) hlength, fun f hf => ?_⟩
      · rw [locate, Text.gaps?, hslice, Option.bind_some]
        exact congrArg (Option.map _) hgaps
      · rw [locate, List.map_cons, weave, List.nil_append, List.flatMap_cons, ← hweave f hf]
        rfl

/-! ## A whole text -/

section

variable (scope : Scope) (file : Path) (sectionName : Text)

theorem filterMap_left?_locate : ∀ (l : List Item) (start : Nat),
    l.filterMap (Item.left? scope) =
      ((locate start l).filter fun s => (s.bound? scope).isNone).map
        fun s => (s.text, s.complaint)
  | [], _ => rfl
  | .char c :: rest, start => filterMap_left?_locate rest (start + c.utf8Size)
  | .statement body :: rest, start => by
    rw [List.filterMap_cons, Item.left?_body scope ⟨body, start⟩, locate,
      filterMap_left?_locate rest (start + (delimited body).size), List.filter_cons]
    cases (Statement.bound? scope ⟨body, start⟩).isNone <;> rfl

/-- The warnings about a text, one for each statement that is not bound. -/
theorem resolveText_snd_scan (text : Text) :
    (resolveText scope file sectionName text).2 =
      ((scan text).filter fun s => (s.bound? scope).isNone).map
        (Statement.warning file sectionName) := by
  rw [resolveText_snd, filterMap_left?_locate scope (items text) 0, List.map_map]
  rfl

/-- A text is cut into the gaps between its statements. The resolved text has the same gaps,
what bound slots are bound to and all other statements as they were written, and each of
these gives one warning. -/
theorem resolveText_weave (text : Text) :
    ∃ gaps, text.gaps? 0 (scan text) = some gaps ∧ gaps.length = (scan text).length + 1 ∧
      weave gaps ((scan text).map Statement.text) = text ∧
      (resolveText scope file sectionName text).1 =
        weave gaps ((scan text).map (Statement.resolved scope)) ∧
      (resolveText scope file sectionName text).2 =
        ((scan text).filter fun s => (s.bound? scope).isNone).map
          (Statement.warning file sectionName) ∧
      ((scan text).filter fun s => (s.bound? scope).isSome).length +
        (resolveText scope file sectionName text).2.length = (scan text).length ∧
      ((∀ s ∈ scan text, s.bound? scope = none) →
        (resolveText scope file sectionName text).1 = text) := by
  obtain ⟨gap, gaps, hgaps, hlength, hweave⟩ := exists_gaps (items text) []
  rw [List.nil_append, written_items] at hgaps
  have htext : weave (gap :: gaps) ((scan text).map Statement.text) = text :=
    (hweave Item.text fun c => rfl).trans (written_items text)
  have hresolved : (resolveText scope file sectionName text).1 =
      weave (gap :: gaps) ((scan text).map (Statement.resolved scope)) := by
    have hbody : (fun s : Statement => (Item.statement s.body).resolved scope) =
        Statement.resolved scope := funext (Item.resolved_body scope)
    rw [resolveText_fst, ← hweave (Item.resolved scope) fun c => rfl, hbody]
    rfl
  have hwarnings := resolveText_snd_scan scope file sectionName text
  refine ⟨gap :: gaps, hgaps, congrArg (· + 1) hlength, htext, hresolved, hwarnings, ?_, ?_⟩
  · have hsplit := (scan text).length_eq_length_filter_add fun s =>
      (s.bound? scope).isSome
    rw [hwarnings, List.length_map, hsplit]
    simp
  · intro hunbound
    have hkept : (scan text).map (Statement.resolved scope) = (scan text).map Statement.text :=
      List.map_congr_left fun s hs => by rw [Statement.resolved, hunbound s hs, Option.getD_none]
    rw [hresolved, hkept, htext]

end

/-- A bound slot, a statement that nothing knows and a slot that is not bound. -/
def mixed : Text :=
  "1$<slot x>$2$<include y>$$<slot z>$".toList

theorem resolveText_weave_mixed :
    resolveText (Dict.ofList [(['x'], ['v'])]) ⟨['a']⟩ anonymous mixed =
        ("1v2$<include y>$$<slot z>$".toList,
          [⟨⟨['a']⟩, anonymous, "$<include y>$".toList, .unknownCommand "include".toList⟩,
            ⟨⟨['a']⟩, anonymous, "$<slot z>$".toList, .missingVariable ['z']⟩]) ∧
      (resolveText (Dict.ofList []) ⟨['a']⟩ anonymous mixed).1 = mixed := by
  obtain ⟨-, -, -, -, -, -, -, hsame⟩ :=
    resolveText_weave (Dict.ofList []) ⟨['a']⟩ anonymous mixed
  have hscan : scan mixed = [⟨"slot x".toList, 1⟩, ⟨"include y".toList, 12⟩,
      ⟨"slot z".toList, 25⟩] := by cbv
  refine ⟨by cbv, hsame fun s hs => ?_⟩
  rw [hscan] at hs
  simp only [List.mem_cons, List.not_mem_nil, or_false] at hs
  rcases hs with rfl | rfl | rfl <;> cbv

/-! ## Lines -/

section

variable (scope : Scope) (file : Path) (sectionName : Text)

theorem resolveText_append_newline (a b : Text) :
    resolveText scope file sectionName (a ++ '\n' :: b) =
      ((resolveText scope file sectionName a).1 ++ '\n' :: (resolveText scope file sectionName b).1,
        (resolveText scope file sectionName a).2 ++ (resolveText scope file sectionName b).2) := by
  refine Prod.ext ?_ ?_
  · simp only [resolveText_fst, items_append_newline, List.flatMap_append, List.flatMap_cons]
    rfl
  · simp only [resolveText_snd, items_append_newline, List.filterMap_append, List.filterMap_cons,
      Item.left?, List.map_append]

/-- A text is resolved line by line. -/
theorem resolveText_join_newline : ∀ lines : List Text,
    resolveText scope file sectionName (Text.join ['\n'] lines) =
      (Text.join ['\n'] (lines.map fun line => (resolveText scope file sectionName line).1),
        lines.flatMap fun line => (resolveText scope file sectionName line).2)
  | [] => by
    refine Prod.ext ?_ ?_
    · rw [resolveText_fst, Text.join, List.intercalate_nil, items]
      rfl
    · rw [resolveText_snd, Text.join, List.intercalate_nil, items]
      rfl
  | [line] => by simp [Text.join, List.intercalate_singleton]
  | line :: next :: lines => by
    have ih := resolveText_join_newline (next :: lines)
    simp only [Text.join, List.map_cons, List.intercalate_cons_cons, List.append_assoc,
      List.singleton_append, List.flatMap_cons] at ih ⊢
    rw [resolveText_append_newline, ih]

end

/-- The lines of a text are scanned and resolved each by itself. The line end between two
texts stays, the statements of the second one stand behind it, and what is found in one of
them does not depend on the other. -/
theorem scan_resolve_lines :
    (∀ a b, scan (a ++ '\n' :: b) =
      scan a ++ (scan b).map (Statement.shift (a.size + 1))) ∧
    ∀ (scope : Scope) (file : Path) (sectionName : Text),
      (∀ a b, resolveText scope file sectionName (a ++ '\n' :: b) =
        ((resolveText scope file sectionName a).1 ++
            '\n' :: (resolveText scope file sectionName b).1,
          (resolveText scope file sectionName a).2 ++
            (resolveText scope file sectionName b).2)) ∧
      ∀ lines : List Text, resolveText scope file sectionName (Text.join ['\n'] lines) =
        (Text.join ['\n'] (lines.map fun line => (resolveText scope file sectionName line).1),
          lines.flatMap fun line => (resolveText scope file sectionName line).2) :=
  ⟨scan_append_newline, fun scope file sectionName =>
    ⟨resolveText_append_newline scope file sectionName,
      resolveText_join_newline scope file sectionName⟩⟩

end Folio
