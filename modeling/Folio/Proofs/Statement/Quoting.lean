import Folio.Proofs.Statement.Places
import Folio.Proofs.Statement.Words

/-!
# Words between double quotes

`quotedWords` writes words between double quotes, with a backslash in front of each
backslash and each double quote in them. Such a body has no close in it if the words have
none (`passesClose_quotedWords`), and each of its quoted texts ends where it was meant to
end (`closeQuote?_escaped`), so it is read as one statement with as many words.

Between double quotes `Quoted.unescape` undoes the escapes (`unescape_double_escaped`). It
is given a quoted text without its quotes, though, and outside of quotes a backslash stands
for itself. `stripped` is what it makes of an escaped word (`unescape_escaped`), and that
has more backslashes than the word (`count_backslash_lt_stripped`). So a word comes back
exactly when nothing in it had to be escaped (`scan_quoted`).
-/

namespace Folio

namespace Quoted

/-- A backslash in front of each backslash and each double quote. -/
def escaped (w : Text) : Text :=
  w.flatMap fun c => if c = '\\' ∨ c = '"' then ['\\', c] else [c]

/-- A word between double quotes. -/
def enclosed (w : Text) : Text :=
  '"' :: escaped w ++ ['"']

section

variable {c : Char} {w : Text}

theorem escaped_cons_of_eq (h : c = '\\' ∨ c = '"') (w : Text) :
    escaped (c :: w) = '\\' :: c :: escaped w := by
  rw [escaped, List.flatMap_cons, if_pos h]
  rfl

theorem escaped_cons_of_ne (h : ¬(c = '\\' ∨ c = '"')) (w : Text) :
    escaped (c :: w) = c :: escaped w := by
  rw [escaped, List.flatMap_cons, if_neg h]
  rfl

theorem escaped_eq_self (h : '"' ∉ w ∧ '\\' ∉ w) : escaped w = w := by
  induction w with
  | nil => rfl
  | cons c w ih =>
    rw [List.mem_cons, List.mem_cons, not_or, not_or] at h
    have hc : ¬(c = '\\' ∨ c = '"') := by
      rintro (rfl | rfl)
      · exact h.2.1 rfl
      · exact h.1.1 rfl
    rw [escaped_cons_of_ne hc, ih ⟨h.1.2, h.2.2⟩]

theorem backslash_mem_escaped (h : '"' ∈ w ∨ '\\' ∈ w) : '\\' ∈ escaped w := by
  have hspecial : ∃ c ∈ w, c = '\\' ∨ c = '"' := by
    rcases h with h | h
    · exact ⟨_, h, Or.inr rfl⟩
    · exact ⟨_, h, Or.inl rfl⟩
  obtain ⟨c, hc, hesc⟩ := hspecial
  refine List.mem_flatMap.2 ⟨c, hc, ?_⟩
  rw [if_pos hesc]
  exact List.mem_cons_self

/-! ## What becomes of escapes -/

theorem unescape_outside_double (t : Text) : unescape .outside ('"' :: t) = unescape .double t := by
  rw [unescape]

theorem unescape_outside_single (t : Text) :
    unescape .outside ('\'' :: t) = unescape .single t := by
  rw [unescape]

theorem unescape_single_single (t : Text) : unescape .single ('\'' :: t) = unescape .outside t := by
  rw [unescape]

/-- Between double quotes a backslash hides what follows it. -/
theorem unescape_double_backslash (h : c = '\\' ∨ c = '"') (t : Text) :
    unescape .double ('\\' :: c :: t) = (unescape .double t).map (c :: ·) := by
  rcases h with rfl | rfl <;> rw [unescape] <;> simp [escape?]

theorem unescape_double_cons (h : ¬(c = '\\' ∨ c = '"')) (t : Text) :
    unescape .double (c :: t) = (unescape .double t).map (c :: ·) := by
  rw [not_or] at h
  rw [unescape] <;> simp_all

theorem unescape_outside_cons (hd : c ≠ '"') (hs : c ≠ '\'') (t : Text) :
    unescape .outside (c :: t) = (unescape .outside t).map (c :: ·) := by
  rw [unescape] <;> simp_all

theorem unescape_single_cons (hs : c ≠ '\'') (t : Text) :
    unescape .single (c :: t) = (unescape .single t).map (c :: ·) := by
  rw [unescape] <;> simp_all

/-- Between double quotes the escapes of a word are undone. -/
theorem unescape_double_escaped (w : Text) : unescape .double (escaped w) = some w := by
  induction w with
  | nil => exact unescape_nil .double
  | cons c w ih =>
    by_cases hc : c = '\\' ∨ c = '"'
    · rw [escaped_cons_of_eq hc, unescape_double_backslash hc, ih]
      rfl
    · rw [escaped_cons_of_ne hc, unescape_double_cons hc, ih]
      rfl

/-- Where a reader is that has met no double quote. -/
def modeOf (single : Bool) : Mode :=
  if single then .single else .outside

theorem unescape_modeOf_cons (hs : c ≠ '\'') (hd : c ≠ '"') (single : Bool) (t : Text) :
    unescape (modeOf single) (c :: t) = (unescape (modeOf single) t).map (c :: ·) := by
  cases single with
  | false => exact unescape_outside_cons hd hs t
  | true => exact unescape_single_cons hs t

/-- What an escaped word is read as without the quotes around it, from where single quotes
are open or not. An escape stays as it is written, single quotes are dropped, and from the
first double quote outside of them on the word is read as it is. -/
def stripped (single : Bool) : Text → Text
  | [] => []
  | c :: w =>
    if c = '\'' then stripped (!single) w
    else if c = '"' ∧ single = false then '\\' :: w
    else if c = '\\' ∨ c = '"' then '\\' :: c :: stripped single w
    else c :: stripped single w

theorem unescape_escaped (single : Bool) (w : Text) :
    unescape (modeOf single) (escaped w) = some (stripped single w) := by
  induction w generalizing single with
  | nil => exact unescape_nil _
  | cons c w ih =>
    have hback : ∀ t, unescape (modeOf single) ('\\' :: t) =
        (unescape (modeOf single) t).map ('\\' :: ·) :=
      unescape_modeOf_cons (by decide) (by decide) single
    rw [stripped]
    by_cases hs : c = '\''
    · rw [if_pos hs, hs, escaped_cons_of_ne (by decide), ← ih]
      cases single with
      | false => exact unescape_outside_single _
      | true => exact unescape_single_single _
    rw [if_neg hs]
    by_cases hd : c = '"'
    · rw [hd, escaped_cons_of_eq (Or.inr rfl), hback]
      cases single with
      | false =>
        show (unescape .outside ('"' :: escaped w)).map _ = _
        rw [unescape_outside_double, unescape_double_escaped]
        rfl
      | true =>
        show (unescape .single ('"' :: escaped w)).map _ = _
        rw [unescape_single_cons (by decide)]
        have hw : unescape .single (escaped w) = some (stripped true w) := ih true
        rw [hw]
        rfl
    rw [if_neg fun h => hd h.1]
    by_cases hc : c = '\\' ∨ c = '"'
    · rw [if_pos hc, escaped_cons_of_eq hc, hback, unescape_modeOf_cons hs hd, ih]
      rfl
    · rw [if_neg hc, escaped_cons_of_ne hc, unescape_modeOf_cons hs hd, ih]
      rfl

theorem count_backslash_le_stripped (single : Bool) (w : Text) :
    w.count '\\' ≤ (stripped single w).count '\\' := by
  fun_induction stripped single w with
  | case1 => exact Nat.le_refl 0
  | case2 single w ih => rwa [List.count_cons_of_ne (by decide)]
  | case3 single c w hs hd =>
    rw [hd.1, List.count_cons_of_ne (by decide), List.count_cons_self]
    exact Nat.le_succ _
  | case4 single c w hs hd hc ih =>
    rw [List.count_cons_self, List.count_cons, List.count_cons]
    omega
  | case5 single c w hs hd hc ih =>
    rw [List.count_cons, List.count_cons]
    exact Nat.add_le_add_right ih _

/-- A word in which something is escaped gains backslashes. -/
theorem count_backslash_lt_stripped (single : Bool) (w : Text) (h : '"' ∈ w ∨ '\\' ∈ w) :
    w.count '\\' < (stripped single w).count '\\' := by
  fun_induction stripped single w with
  | case1 => simp at h
  | case2 single w ih => simpa using ih (by simpa using h)
  | case3 => simp_all
  | case4 single c w hs hd hc =>
    have := count_backslash_le_stripped single w
    simp [List.count_cons]
    omega
  | case5 single c w hs hd hc ih =>
    rw [not_or] at hc
    have := ih (h.imp (fun h => (List.mem_cons.1 h).resolve_left (Ne.symm hc.2))
      fun h => (List.mem_cons.1 h).resolve_left (Ne.symm hc.1))
    simpa [List.count_cons_of_ne hc.1] using this

/-- What a word between double quotes is read as. -/
def reread (w : Text) : Text :=
  if '"' ∈ w ∨ '\\' ∈ w then stripped false w else w

theorem quotedValue_escaped (w : Text) : quotedValue '"' (escaped w) = reread w := by
  unfold reread
  split
  · rename_i hmem
    rw [quotedValue, if_pos (backslash_mem_escaped hmem)]
    show (unescape (modeOf false) (escaped w)).getD _ = _
    rw [unescape_escaped]
    rfl
  · rename_i hnone
    rw [not_or] at hnone
    rw [escaped_eq_self hnone, quotedValue_of_notMem hnone.2]

/-- A word is read as itself exactly when nothing in it is escaped. -/
theorem reread_eq_iff : reread w = w ↔ '"' ∉ w ∧ '\\' ∉ w := by
  rw [← not_or, reread]
  split
  · rename_i hmem
    refine iff_of_false (fun h => ?_) (not_not_intro hmem)
    have hlt := count_backslash_lt_stripped false w hmem
    rw [h] at hlt
    exact Nat.lt_irrefl _ hlt
  · rename_i hnone
    exact iff_of_true rfl hnone

/-! ## The end of an escaped word -/

theorem closeQuote?_escaped (w after : Text) :
    closeQuote? '"' (escaped w ++ '"' :: after) = some (escaped w, after) := by
  induction w with
  | nil => exact closeQuote?_self (by decide) after
  | cons c w ih =>
    by_cases hc : c = '\\' ∨ c = '"'
    · rw [escaped_cons_of_eq hc, List.cons_append, List.cons_append, closeQuote?_backslash, ih]
      rfl
    · rw [escaped_cons_of_ne hc, List.cons_append]
      rw [not_or] at hc
      rw [closeQuote?_cons hc.2 hc.1, ih]
      rfl

theorem readsAs_enclosed (w : Text) : ReadsAs (enclosed w) (reread w) := by
  rw [← quotedValue_escaped]
  exact readsAs_quoted rfl (closeQuote?_escaped w)

end

end Quoted

/-! ## Texts without a close -/

/-- Whether the search for a close goes past a text, whatever follows it. -/
def PassesClose (s : Text) : Prop :=
  ∀ t, close? (s ++ t) = (close? t).map fun (body, after) => (s ++ body, after)

section

variable {c : Char} {s t w : Text} {words : List Text}

theorem PassesClose.append (hs : PassesClose s) (ht : PassesClose t) : PassesClose (s ++ t) := by
  intro u
  rw [List.append_assoc, hs, ht, Option.map_map]
  simp [Function.comp_def]

theorem passesClose_singleton (hline : c ≠ '\n') (hclose : c ≠ '>') : PassesClose [c] :=
  fun _ => close?_cons hline fun _ hc => absurd hc hclose

theorem passesClose_nil : PassesClose [] := by
  intro t
  simp

/-- A text that is passed is the body of one statement. -/
theorem scan_delimited (h : PassesClose s) : scan (delimited s) = [⟨s, 0⟩] := by
  have hclose : close? (s ++ ['>', '$']) = some (s, []) := by
    rw [h, close?_delimiter]
    simp
  have hitems : items (delimited s) = [.statement s] := by
    have hnil : items [] = [] := by rw [items]
    rw [delimited, List.cons_append, List.cons_append, items_statement hclose, hnil]
  rw [scan, hitems]
  rfl

open Quoted

/-- Behind an escaped word stands a quote, so its last character begins no close. -/
theorem passesClose_escaped_quote (hline : '\n' ∉ w) (hclose : ¬['>', '$'] <:+: w) :
    PassesClose (escaped w ++ ['"']) := by
  induction w with
  | nil => exact passesClose_singleton (by decide) (by decide)
  | cons c w ih =>
    rw [List.mem_cons, not_or] at hline
    have hrest : PassesClose (escaped w ++ ['"']) :=
      ih hline.2 fun hpart => hclose (hpart.trans (List.suffix_cons c w).isInfix)
    by_cases hc : c = '\\' ∨ c = '"'
    · have hback : PassesClose ['\\'] := passesClose_singleton (by decide) (by decide)
      have hchar : PassesClose [c] :=
        passesClose_singleton (Ne.symm hline.1) (by rcases hc with rfl | rfl <;> decide)
      rw [escaped_cons_of_eq hc]
      exact hback.append (hchar.append hrest)
    · rw [escaped_cons_of_ne hc]
      intro t
      have hnext : ∀ u, c = '>' → escaped w ++ ['"'] ++ t ≠ '$' :: u := by
        rintro u rfl hu
        cases w with
        | nil => simp [escaped] at hu
        | cons d w =>
          by_cases hd : d = '\\' ∨ d = '"'
          · simp [escaped_cons_of_eq hd] at hu
          · rw [escaped_cons_of_ne hd] at hu
            obtain ⟨rfl, -⟩ := List.cons.inj hu
            exact hclose (List.prefix_append ['>', '$'] w).isInfix
      rw [List.cons_append, List.cons_append, close?_cons (Ne.symm hline.1) hnext, hrest,
        Option.map_map]
      rfl

theorem passesClose_enclosed (hline : '\n' ∉ w) (hclose : ¬['>', '$'] <:+: w) :
    PassesClose (enclosed w) :=
  (passesClose_singleton (c := '"') (by decide) (by decide)).append
    (passesClose_escaped_quote hline hclose)

/-! ## Lists of words -/

/-- Words between double quotes, with single spaces between them. -/
def quotedWords (words : List Text) : Text :=
  Text.join [' '] (words.map enclosed)

theorem quotedWords_cons_cons (w v : Text) (words : List Text) :
    quotedWords (w :: v :: words) = enclosed w ++ ' ' :: quotedWords (v :: words) := by
  simp [quotedWords, Text.join]

theorem quotedWords_singleton (w : Text) : quotedWords [w] = enclosed w := by
  simp [quotedWords, Text.join]

theorem passesClose_quotedWords (h : ∀ w ∈ words, '\n' ∉ w ∧ ¬['>', '$'] <:+: w) :
    PassesClose (quotedWords words) := by
  induction words with
  | nil => exact passesClose_nil
  | cons w words ih =>
    rw [List.forall_mem_cons] at h
    have hword := passesClose_enclosed h.1.1 h.1.2
    cases words with
    | nil => rwa [quotedWords_singleton]
    | cons v words =>
      have hspace : PassesClose [' '] := passesClose_singleton (by decide) (by decide)
      rw [quotedWords_cons_cons]
      exact hword.append (hspace.append (ih h.2))

theorem splitWords_quotedWords (hne : words ≠ []) :
    splitWords (quotedWords words) = words.map reread := by
  induction words with
  | nil => exact absurd rfl hne
  | cons w words ih =>
    cases words with
    | nil =>
      rw [quotedWords_singleton]
      exact (readsAs_enclosed w).splitWords
    | cons v words =>
      rw [quotedWords_cons_cons, (readsAs_enclosed w).splitWords_append (by decide),
        ih (List.cons_ne_nil v words)]
      rfl

/-- Words between double quotes are read as one statement with as many words, and these are
the words that were written exactly when nothing in them is escaped. -/
theorem scan_quoted (hne : words ≠ []) (h : ∀ w ∈ words, '\n' ∉ w ∧ ¬['>', '$'] <:+: w) :
    ∃ s, scan (delimited (quotedWords words)) = [s] ∧ s.start = 0 ∧
      s.stop = (delimited (quotedWords words)).size ∧
      s.command :: s.args = words.map reread ∧
      (s.command :: s.args = words ↔ ∀ w ∈ words, '"' ∉ w ∧ '\\' ∉ w) := by
  have hwords : Statement.command ⟨quotedWords words, 0⟩ :: Statement.args ⟨quotedWords words, 0⟩ =
      words.map reread := by
    rw [Statement.command, Statement.args, splitWords_quotedWords hne]
    obtain ⟨w, rest, rfl⟩ := List.exists_cons_of_ne_nil hne
    rfl
  refine ⟨⟨quotedWords words, 0⟩, scan_delimited (passesClose_quotedWords h), rfl,
    Nat.zero_add _, hwords, ?_⟩
  have hsame : words.map reread = words ↔ ∀ w ∈ words, reread w = w := by
    have := List.map_inj_left (l := words) (f := reread) (g := id)
    rwa [List.map_id] at this
  rw [hwords, hsame]
  exact ⟨fun h w hw => reread_eq_iff.1 (h w hw), fun h w hw => reread_eq_iff.2 (h w hw)⟩

/-- Of three words the one with a backslash in it does not come back. -/
theorem scan_quoted_backslash :
    (∀ w ∈ ["fill".toList, "a\\b".toList, "it's".toList], '\n' ∉ w ∧ ¬['>', '$'] <:+: w) ∧
      ∃ s, scan "$<\"fill\" \"a\\\\b\" \"it's\">$".toList = [s] ∧
        s.command :: s.args ≠ ["fill".toList, "a\\b".toList, "it's".toList] := by
  have hwords : ∀ w ∈ ["fill".toList, "a\\b".toList, "it's".toList],
      '\n' ∉ w ∧ ¬['>', '$'] <:+: w := by decide
  obtain ⟨s, hscan, -, -, -, hiff⟩ := scan_quoted (List.cons_ne_nil _ _) hwords
  refine ⟨hwords, s, hscan, fun heq => ?_⟩
  exact absurd (hiff.1 heq "a\\b".toList (by simp)).2 (by decide)

/-- A backslash that was escaped is read as two backslashes. -/
theorem escaped_backslash_doubles :
    scan (delimited (quotedWords ["a\\b".toList])) = [⟨"\"a\\\\b\"".toList, 0⟩] ∧
      Statement.command ⟨"\"a\\\\b\"".toList, 0⟩ = "a\\\\b".toList ∧
      "a\\\\b".toList ≠ "a\\b".toList :=
  ⟨by decide +kernel, by decide +kernel, by decide⟩

end

end Folio
