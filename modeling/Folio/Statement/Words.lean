import Folio.Text.Quoted

/-!
# The words of a statement

The body of a statement is split at spaces, tabs and line breaks. Text between
quotes belongs to one word with whatever touches it, so `a"b c"d` is the single
word `ab cd`. A quote without a partner is an ordinary character, and so is all
that follows it.
-/

namespace Folio

/-- The characters that separate words. -/
def isSeparator (c : Char) : Bool :=
  c = ' ' || c = '\t' || c = '\r' || c = '\n'

/-- The text up to the quote `q` that closes it, and what follows. A character
after a backslash closes nothing. -/
def closeQuote? (q : Char) : Text → Option (Text × Text)
  | [] => none
  | '\\' :: c :: rest => (closeQuote? q rest).map fun (inner, after) => ('\\' :: c :: inner, after)
  | c :: rest =>
    if c = q then some ([], rest)
    else if c = '\\' then none
    else (closeQuote? q rest).map fun (inner, after) => (c :: inner, after)

/-- The character behind a backslash closes nothing. -/
theorem closeQuote?_backslash (q c : Char) (t : Text) : closeQuote? q ('\\' :: c :: t) =
    (closeQuote? q t).map fun (inner, after) => ('\\' :: c :: inner, after) := by
  rw [closeQuote?]

theorem closeQuote?_eq_append {q : Char} {t inner after : Text}
    (h : closeQuote? q t = some (inner, after)) : t = inner ++ q :: after := by
  fun_induction closeQuote? q t generalizing inner after with
  | case1 => simp at h
  | case2 c rest ih =>
    obtain ⟨⟨i, a⟩, hi, he⟩ := Option.map_eq_some_iff.1 h
    cases he
    simp [ih hi]
  | case3 rest _ => simp at h; simp [h.1.symm, h.2]
  | case4 => simp at h
  | case5 c rest _ _ _ ih =>
    obtain ⟨⟨i, a⟩, hi, he⟩ := Option.map_eq_some_iff.1 h
    cases he
    simp [ih hi]

/-- What a quoted text stands for. Without a backslash it is the text between
the quotes; an escape that is not known leaves it as it is written. -/
def quotedValue (q : Char) (inner : Text) : Text :=
  if '\\' ∈ inner then (Quoted.unescape .outside inner).getD (q :: inner ++ [q]) else inner

/-- A part of a statement's body. -/
inductive Lexeme where
  | gap
  | piece (text : Text)
deriving DecidableEq

/-- The gaps and pieces of a body, from left to right. -/
def lexemes : Text → List Lexeme
  | [] => []
  | c :: rest =>
    if isSeparator c then .gap :: lexemes rest
    else if c = '"' ∨ c = '\'' then
      match _h : closeQuote? c rest with
      | some (inner, after) => .piece (quotedValue c inner) :: lexemes after
      | none => [.piece (c :: rest)]
    else .piece [c] :: lexemes rest
termination_by t => t.length
decreasing_by
  all_goals simp_wf
  have := congrArg List.length (closeQuote?_eq_append _h)
  simp at this
  omega

theorem lexemes_separator {c : Char} (hc : isSeparator c) (t : Text) :
    lexemes (c :: t) = .gap :: lexemes t := by
  rw [lexemes, if_pos hc]

/-- The word that touches the left end of some lexemes, if any, and the words
after it. -/
def gather : List Lexeme → Option Text × List Text
  | [] => (none, [])
  | .gap :: rest =>
    let (word, words) := gather rest
    (none, word.toList ++ words)
  | .piece t :: rest =>
    let (word, words) := gather rest
    (some (t ++ word.getD []), words)

/-- The words of a statement's body. -/
def splitWords (body : Text) : List Text :=
  let (word, words) := gather (lexemes body)
  word.toList ++ words

end Folio
