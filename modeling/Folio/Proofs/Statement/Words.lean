import Folio.Proofs.Text.Fields
import Folio.Statement.Words

/-!
# How words are spelled

`splitWords` is told here by what a text adds to the word behind it (`ReadsAs`) : a plain
character adds itself, a text in quotes adds what it stands for, and texts side by side
add up. A separator ends the word (`ReadsAs.splitWords_append`).

`SpelledBody` is a body as it may be written without escapes : words out of plain runs and
quoted texts, with separators between them. `SpelledBody.splitWords_text` : its words are
read, each with its quotes removed, and no others.

A quote that nothing closes takes all that follows it into its word, separators included.
`splitWords_stray` : the words of such a body are the runs between separators up to the
quote, the last of which goes on to the end of the body. So the body is split at its
separators exactly when none of them stands behind the quote.
-/

namespace Folio

/-- The characters that a quoted text begins and ends with. -/
def isQuote (c : Char) : Bool :=
  c = '"' || c = '\''

theorem isQuote_iff {c : Char} : isQuote c ↔ c = '"' ∨ c = '\'' := by
  simp [isQuote]

theorem not_isSeparator_of_isQuote {c : Char} (h : isQuote c) : ¬isSeparator c := by
  rcases isQuote_iff.1 h with rfl | rfl <;> decide

theorem ne_backslash_of_isQuote {c : Char} (h : isQuote c) : c ≠ '\\' := by
  rcases isQuote_iff.1 h with rfl | rfl <;> decide

/-! ## The end of a quoted text -/

section

variable {q c : Char} {t inner after : Text}

theorem closeQuote?_self (hq : q ≠ '\\') (t : Text) : closeQuote? q (q :: t) = some ([], t) := by
  rw [closeQuote?, if_pos rfl]
  exact fun _ _ h => absurd h hq

theorem closeQuote?_cons (hq : c ≠ q) (hc : c ≠ '\\') (t : Text) : closeQuote? q (c :: t) =
    (closeQuote? q t).map fun (inner, after) => (c :: inner, after) := by
  rw [closeQuote?, if_neg hq, if_neg hc]
  exact fun _ _ h => absurd h hc

theorem closeQuote?_eq_none (h : q ∉ t) : closeQuote? q t = none := by
  cases hclose : closeQuote? q t with
  | none => rfl
  | some r =>
    obtain ⟨inner, after⟩ := r
    refine absurd ?_ h
    rw [closeQuote?_eq_append hclose]
    exact List.mem_append_right inner List.mem_cons_self

/-- Without a backslash the nearest quote closes. -/
theorem closeQuote?_append (hq : isQuote q) (hinner : q ∉ inner) (hplain : '\\' ∉ inner)
    (after : Text) : closeQuote? q (inner ++ q :: after) = some (inner, after) := by
  induction inner with
  | nil => exact closeQuote?_self (ne_backslash_of_isQuote hq) after
  | cons c inner ih =>
    rw [List.mem_cons, not_or] at hinner hplain
    rw [List.cons_append, closeQuote?_cons (Ne.symm hinner.1) (Ne.symm hplain.1),
      ih hinner.2 hplain.2]
    rfl

/-! ## Gaps and pieces -/

theorem lexemes_plain (hc : ¬isSeparator c) (hq : ¬isQuote c) (t : Text) :
    lexemes (c :: t) = .piece [c] :: lexemes t := by
  rw [isQuote_iff] at hq
  rw [lexemes, if_neg hc, if_neg hq]

theorem lexemes_quoted (hq : isQuote q) (h : closeQuote? q t = some (inner, after)) :
    lexemes (q :: t) = .piece (quotedValue q inner) :: lexemes after := by
  rw [lexemes, if_neg (not_isSeparator_of_isQuote hq), if_pos (isQuote_iff.1 hq)]
  split
  · rename_i i a hclose
    rw [h] at hclose
    cases hclose
    rfl
  · rename_i hclose
    rw [h] at hclose
    cases hclose

theorem lexemes_unclosed (hq : isQuote q) (h : closeQuote? q t = none) :
    lexemes (q :: t) = [.piece (q :: t)] := by
  rw [lexemes, if_neg (not_isSeparator_of_isQuote hq), if_pos (isQuote_iff.1 hq)]
  split
  · rename_i hclose
    rw [h] at hclose
    cases hclose
  · rfl

theorem quotedValue_of_notMem (h : '\\' ∉ inner) : quotedValue q inner = inner :=
  if_neg h

end

/-! ## What a text adds to a word -/

/-- Whether a text adds `value` to the word behind it, whatever that is. -/
def ReadsAs (t value : Text) : Prop :=
  ∀ rest, gather (lexemes (t ++ rest)) =
    (some (value ++ (gather (lexemes rest)).1.getD []), (gather (lexemes rest)).2)

section

variable {q c : Char} {s t u v inner : Text}

theorem ReadsAs.append (hs : ReadsAs s u) (ht : ReadsAs t v) : ReadsAs (s ++ t) (u ++ v) := by
  intro rest
  rw [List.append_assoc, hs, ht, Option.getD_some, List.append_assoc]

theorem ReadsAs.flatMap {α : Type} {l : List α} {f g : α → Text} (hne : l ≠ [])
    (h : ∀ a ∈ l, ReadsAs (f a) (g a)) : ReadsAs (l.flatMap f) (l.flatMap g) := by
  induction l with
  | nil => exact absurd rfl hne
  | cons a l ih =>
    rw [List.forall_mem_cons] at h
    cases l with
    | nil => simpa using h.1
    | cons b l =>
      rw [List.flatMap_cons, List.flatMap_cons]
      exact h.1.append (ih (List.cons_ne_nil b l) h.2)

theorem readsAs_plain (hne : t ≠ []) (h : ∀ c ∈ t, ¬isSeparator c ∧ ¬isQuote c) :
    ReadsAs t t := by
  have hchar : ∀ c ∈ t, ReadsAs [c] [c] := fun c hc rest => by
    rw [List.singleton_append, lexemes_plain (h c hc).1 (h c hc).2]
    rfl
  simpa using ReadsAs.flatMap hne hchar

theorem readsAs_quoted (hq : isQuote q)
    (h : ∀ after, closeQuote? q (inner ++ q :: after) = some (inner, after)) :
    ReadsAs (q :: inner ++ [q]) (quotedValue q inner) := by
  intro rest
  have hclose : closeQuote? q (inner ++ [q] ++ rest) = some (inner, rest) := by
    rw [List.append_assoc]
    exact h rest
  rw [List.cons_append, List.cons_append, lexemes_quoted hq hclose]
  rfl

/-! ## Words and separators -/

theorem splitWords_nil : splitWords [] = [] := by
  rw [splitWords, lexemes]
  rfl

theorem splitWords_separator (hc : isSeparator c) (t : Text) :
    splitWords (c :: t) = splitWords t := by
  rw [splitWords, lexemes_separator hc]
  rfl

theorem splitWords_separators (hs : ∀ c ∈ s, isSeparator c) (t : Text) :
    splitWords (s ++ t) = splitWords t := by
  induction s with
  | nil => rfl
  | cons c s ih =>
    rw [List.forall_mem_cons] at hs
    rw [List.cons_append, splitWords_separator hs.1, ih hs.2]

theorem ReadsAs.splitWords (h : ReadsAs t v) : splitWords t = [v] := by
  have hgather := h []
  rw [List.append_nil, lexemes] at hgather
  rw [Folio.splitWords, hgather]
  simp [gather]

/-- A separator ends the word in front of it. -/
theorem ReadsAs.splitWords_append (h : ReadsAs t v) (hc : isSeparator c) (rest : Text) :
    Folio.splitWords (t ++ c :: rest) = v :: Folio.splitWords rest := by
  rw [Folio.splitWords, h, lexemes_separator hc, Folio.splitWords]
  simp [gather]

end

/-! ## Bodies without escapes -/

/-- A part of a word : a run of plain characters, or a text in quotes. -/
inductive WordPiece where
  | plain (run : Text) (ne_nil : run ≠ [])
      (chars : ∀ c ∈ run, ¬isSeparator c ∧ ¬isQuote c)
  | quoted (q : Char) (inner : Text) (quote : isQuote q) (closed : q ∉ inner)
      (unescaped : '\\' ∉ inner)

namespace WordPiece

/-- A piece as it is written. -/
def text : WordPiece → Text
  | plain run _ _ => run
  | quoted q inner _ _ _ => q :: inner ++ [q]

/-- A piece without its quotes. -/
def value : WordPiece → Text
  | plain run _ _ => run
  | quoted _ inner _ _ _ => inner

theorem readsAs : ∀ p : WordPiece, ReadsAs p.text p.value
  | plain _ ne_nil chars => readsAs_plain ne_nil chars
  | quoted _ _ quote closed unescaped => by
    have h := readsAs_quoted quote (closeQuote?_append quote closed unescaped)
    rwa [quotedValue_of_notMem unescaped] at h

end WordPiece

/-- A word as it is spelled by pieces that touch each other. -/
structure SpelledWord where
  pieces : List WordPiece
  ne_nil : pieces ≠ []

namespace SpelledWord

/-- A word as it is written. -/
def text (w : SpelledWord) : Text :=
  w.pieces.flatMap WordPiece.text

/-- A word without its quotes. -/
def value (w : SpelledWord) : Text :=
  w.pieces.flatMap WordPiece.value

theorem readsAs (w : SpelledWord) : ReadsAs w.text w.value :=
  ReadsAs.flatMap w.ne_nil fun p _ => p.readsAs

end SpelledWord

/-- A body : separators, and words, each with the separators behind it. Behind a word that
is not the last one there is a separator. -/
structure SpelledBody where
  front : Text
  words : List (SpelledWord × Text)
  front_separators : ∀ c ∈ front, isSeparator c
  separators : ∀ e ∈ words, ∀ c ∈ e.2, isSeparator c
  apart : ∀ e ∈ words.dropLast, e.2 ≠ []

namespace SpelledBody

/-- A body as it is written. -/
def text (b : SpelledBody) : Text :=
  b.front ++ b.words.flatMap fun e => e.1.text ++ e.2

/-- The words that a body spells. -/
def values (b : SpelledBody) : List Text :=
  b.words.map fun e => e.1.value

theorem splitWords_flatMap {words : List (SpelledWord × Text)}
    (hseparators : ∀ e ∈ words, ∀ c ∈ e.2, isSeparator c)
    (hapart : ∀ e ∈ words.dropLast, e.2 ≠ []) :
    splitWords (words.flatMap fun e => e.1.text ++ e.2) = words.map fun e => e.1.value := by
  induction words with
  | nil => exact splitWords_nil
  | cons e words ih =>
    obtain ⟨w, gap⟩ := e
    rw [List.forall_mem_cons] at hseparators
    rw [List.flatMap_cons, List.append_assoc, List.map_cons]
    cases gap with
    | cons c gap =>
      have hgap := List.forall_mem_cons.1 hseparators.1
      have hrest : ∀ e ∈ words.dropLast, e.2 ≠ [] := by
        intro e he
        have hne : words ≠ [] := List.ne_nil_of_mem (List.dropLast_subset words he)
        rw [List.dropLast_cons_of_ne_nil hne] at hapart
        exact hapart e (List.mem_cons_of_mem _ he)
      rw [List.cons_append, w.readsAs.splitWords_append hgap.1, splitWords_separators hgap.2,
        ih hseparators.2 hrest]
    | nil =>
      -- Without a separator behind it this is the last word.
      cases words with
      | nil =>
        rw [List.flatMap_nil, List.append_nil, List.append_nil]
        exact w.readsAs.splitWords
      | cons e words => exact absurd rfl (hapart (w, []) List.mem_cons_self)

/-- The words of a body are read as they are spelled, in their order. -/
theorem splitWords_text (b : SpelledBody) : splitWords b.text = b.values := by
  rw [text, splitWords_separators b.front_separators]
  exact splitWords_flatMap b.separators b.apart

/-- Three words : a run beside two quoted texts, an empty quoted text, and a run. -/
def threeWords : SpelledBody where
  front := " ".toList
  words := [
    (⟨[.plain "a".toList (by decide) (by simp [isSeparator, isQuote]),
      .quoted '"' "b 'c".toList (by decide) (by simp) (by simp),
      .quoted '\'' "d\"".toList (by decide) (by simp) (by simp)], List.cons_ne_nil _ _⟩,
      " \t".toList),
    (⟨[.quoted '"' [] (by decide) (by simp) (by simp)], List.cons_ne_nil _ _⟩, "\r".toList),
    (⟨[.plain "é".toList (by decide) (by simp [isSeparator, isQuote])], List.cons_ne_nil _ _⟩, [])]
  front_separators := by simp [isSeparator]
  separators := by simp [isSeparator]
  apart := by simp

theorem splitWords_threeWords :
    splitWords " a\"b 'c\"'d\"' \t\"\"\ré".toList = ["ab 'cd\"".toList, [], "é".toList] :=
  threeWords.splitWords_text

end SpelledBody

/-! ## A quote without a partner -/

/-- The longest stretches of a text without a separator, from left to right. -/
def runs (t : Text) : List Text :=
  (t.splitOnP isSeparator).filter (· ≠ [])

section

variable {q c : Char} {s t before after : Text}

theorem runs_append_separator (hc : isSeparator c) (s t : Text) :
    runs (s ++ c :: t) = runs s ++ runs t := by
  rw [runs, List.splitOnP_append_cons s t hc, List.filter_append]
  rfl

theorem runs_of_not_isSeparator (hne : t ≠ []) (h : ∀ c ∈ t, ¬isSeparator c) : runs t = [t] := by
  rw [runs, List.splitOnP_eq_singleton fun c hc => by simpa using h c hc]
  simp [hne]

theorem not_isSeparator_of_mem_runs {run : Text} (h : run ∈ runs t) (hc : c ∈ run) :
    ¬isSeparator c :=
  Text.not_of_mem_splitOnP (List.mem_filter.1 h).1 c hc

/-- A text that holds a separator goes on behind its last one. -/
theorem exists_last_separator (s : Text) :
    (∀ c ∈ s, ¬isSeparator c) ∨
      ∃ front c tail, s = front ++ c :: tail ∧ isSeparator c ∧ ∀ d ∈ tail, ¬isSeparator d := by
  induction s with
  | nil => exact Or.inl fun c hc => absurd hc List.not_mem_nil
  | cons d s ih =>
    rcases ih with hnone | ⟨front, c, tail, rfl, hc, htail⟩
    · by_cases hd : isSeparator d
      · exact Or.inr ⟨[], d, s, rfl, hd, hnone⟩
      · exact Or.inl (List.forall_mem_cons.2 ⟨hd, hnone⟩)
    · exact Or.inr ⟨d :: front, c, tail, rfl, hc, htail⟩

/-- In front of the first quote a body is split at its separators. -/
theorem splitWords_append_separator (hs : ∀ d ∈ s, ¬isQuote d) (hc : isSeparator c) (t : Text) :
    splitWords (s ++ c :: t) = runs s ++ splitWords t := by
  induction hn : s.length using Nat.strongRecOn generalizing s c t with
  | ind n ih =>
    rcases exists_last_separator s with hnone | ⟨front, d, tail, rfl, hd, htail⟩
    · by_cases hne : s = []
      · rw [hne, List.nil_append, splitWords_separator hc]
        rfl
      · have hreads := readsAs_plain hne fun d hd => ⟨hnone d hd, hs d hd⟩
        rw [hreads.splitWords_append hc, runs_of_not_isSeparator hne hnone]
        rfl
    · -- Both sides of the separator are shorter.
      rw [List.forall_mem_append, List.forall_mem_cons] at hs
      have hfront := ih front.length (by rw [← hn]; simp) hs.1 hd (tail ++ c :: t) rfl
      have htail := ih tail.length (by rw [← hn]; simp; omega) hs.2.2 hc t rfl
      rw [List.append_assoc, List.cons_append, hfront, htail, runs_append_separator hd,
        List.append_assoc]

/-- A quote that nothing closes takes all that follows it into its word. -/
theorem splitWords_unclosed (hq : isQuote q)
    (hbefore : ∀ c ∈ before, ¬isSeparator c ∧ ¬isQuote c) (hafter : q ∉ after) :
    splitWords (before ++ q :: after) = [before ++ q :: after] := by
  have hlast : gather (lexemes (q :: after)) = (some (q :: after), []) := by
    rw [lexemes_unclosed hq (closeQuote?_eq_none hafter)]
    simp [gather]
  by_cases hne : before = []
  · rw [hne, List.nil_append, splitWords, hlast]
    rfl
  · rw [splitWords, readsAs_plain hne hbefore, hlast]
    rfl

/-- Behind the last separator of a text without quotes, runs and words begin anew. -/
theorem exists_last_run (hs : ∀ c ∈ s, ¬isQuote c) :
    ∃ front tail, s = front ++ tail ∧ (∀ c ∈ tail, ¬isSeparator c) ∧
      (∀ t, runs (front ++ t) = runs front ++ runs t) ∧
      ∀ t, splitWords (front ++ t) = runs front ++ splitWords t := by
  rcases exists_last_separator s with hnone | ⟨front, c, tail, rfl, hc, htail⟩
  · exact ⟨[], s, rfl, hnone, fun _ => rfl, fun _ => rfl⟩
  · rw [List.forall_mem_append] at hs
    have hend : runs (front ++ [c]) = runs front := by
      rw [runs_append_separator hc]
      exact List.append_nil _
    refine ⟨front ++ [c], tail, by simp, htail, fun t => ?_, fun t => ?_⟩
    · rw [hend, ← List.append_cons, runs_append_separator hc]
    · rw [hend, ← List.append_cons, splitWords_append_separator hs.1 hc]

/-- The words of a body with a quote that nothing closes are the runs up to the quote, the
last of which goes on to the end. They are the runs of the body exactly when no separator
stands behind the quote. -/
theorem splitWords_stray (hq : isQuote q) (hbefore : ∀ c ∈ before, ¬isQuote c)
    (hafter : q ∉ after) :
    (∃ words last, runs (before ++ [q]) = words ++ [last] ∧
        splitWords (before ++ q :: after) = words ++ [last ++ after]) ∧
      (splitWords (before ++ q :: after) = runs (before ++ q :: after) ↔
        ∀ c ∈ after, ¬isSeparator c) := by
  obtain ⟨front, tail, rfl, htail, hruns, hwords⟩ := exists_last_run hbefore
  rw [List.forall_mem_append] at hbefore
  have hsplit : splitWords (front ++ tail ++ q :: after) = runs front ++ [tail ++ q :: after] := by
    rw [List.append_assoc, hwords,
      splitWords_unclosed hq (fun c hc => ⟨htail c hc, hbefore.2 c hc⟩) hafter]
  have hlast : ∀ {u : Text}, (∀ c ∈ u, ¬isSeparator c) →
      runs (front ++ tail ++ q :: u) = runs front ++ [tail ++ q :: u] := by
    intro u hu
    have hne : tail ++ q :: u ≠ [] := List.append_ne_nil_of_right_ne_nil tail (List.cons_ne_nil q u)
    rw [List.append_assoc, hruns, runs_of_not_isSeparator hne]
    exact List.forall_mem_append.2 ⟨htail,
      List.forall_mem_cons.2 ⟨not_isSeparator_of_isQuote hq, hu⟩⟩
  rw [hsplit]
  refine ⟨⟨runs front, tail ++ [q], hlast (List.forall_mem_nil _), by simp⟩, fun heq c hc => ?_,
    fun hplain => (hlast hplain).symm⟩
  -- A run has no separator in it, and the last word would be one.
  have hmem : tail ++ q :: after ∈ runs (front ++ tail ++ q :: after) := by
    rw [← heq]
    exact List.mem_append_right _ List.mem_cons_self
  exact not_isSeparator_of_mem_runs hmem (by simp [hc])

theorem splitWords_stray_apostrophe :
    isQuote '\'' ∧ (∀ c ∈ "a it".toList, ¬isQuote c) ∧ '\'' ∉ "s b".toList ∧
      ∃ words last, runs "a it'".toList = words ++ [last] ∧
        splitWords "a it's b".toList = words ++ [last ++ "s b".toList] := by
  have hbefore : ∀ c ∈ "a it".toList, ¬isQuote c := by simp [isQuote]
  exact ⟨by decide, hbefore, by decide, (splitWords_stray (by decide) hbefore (by decide)).1⟩

/-- A separator behind a single quote does not end a word. -/
theorem separator_behind_quote : "a \"b c".toList.countP isQuote = 1 ∧
    splitWords "a \"b c".toList = ["a".toList, "\"b c".toList] ∧
    runs "a \"b c".toList = ["a".toList, "\"b".toList, "c".toList] := by
  cbv

end

end Folio
