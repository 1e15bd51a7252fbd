import Folio.Text.Basic

/-!
# Readers

A `Reader` takes a value off the front of a text, or of another list of symbols,
or refuses it. `many`, `untilNone` and `separatedBy` repeat a reader for as long as
it makes progress, so repetition always ends.
-/

namespace Folio

/-- Takes a value off the front of a list of symbols and leaves the rest, or
refuses. -/
abbrev ReaderOf (σ α : Type) := StateT (List σ) Option α

/-- A reader of a text. -/
abbrev Reader (α : Type) := ReaderOf Char α

namespace Reader

variable {σ α β : Type}

/-- Refuses. -/
def refuse : ReaderOf σ α :=
  fun _ => none

/-- The first symbol, which stays where it is. -/
def peek? : ReaderOf σ (Option σ) :=
  fun t => some (t.head?, t)

/-- Takes the first symbol. -/
def next : ReaderOf σ σ
  | [] => none
  | c :: rest => some (c, rest)

/-- Takes the first character. -/
def anyChar : Reader Char :=
  next

/-- Takes the first symbol when it satisfies `p`. -/
def satisfy (p : σ → Bool) : ReaderOf σ σ
  | [] => none
  | c :: rest => if p c then some (c, rest) else none

/-- Takes the character `c`. -/
def char (c : Char) : Reader Unit
  | [] => none
  | d :: rest => if d = c then some ((), rest) else none

/-- Takes the text `word`. -/
def literal (word : Text) : Reader Unit :=
  fun t => (word.isPrefixOf? t).map fun rest => ((), rest)

/-- Takes the longest run of symbols that satisfy `p`. -/
def run (p : σ → Bool) : ReaderOf σ (List σ) :=
  fun t => some (t.takeWhile p, t.dropWhile p)

/-- Takes the longest run, which may not be empty. -/
def run1 (p : σ → Bool) : ReaderOf σ (List σ) :=
  fun t =>
    match t.takeWhile p with
    | [] => none
    | cs => some (cs, t.dropWhile p)

/-- Accepts the end alone. -/
def atEnd : ReaderOf σ Unit
  | [] => some ((), [])
  | _ :: _ => none

/-- Whether the rest begins with `word`. -/
def startsWith (word : Text) : Reader Bool :=
  fun t => some (word.isPrefixOf t, t)

/-- Reads a value that may be missing; when the reader refuses, nothing is taken. -/
def optional (r : ReaderOf σ α) : ReaderOf σ (Option α) :=
  fun t =>
    match r t with
    | some (a, rest) => some (some a, rest)
    | none => some (none, t)

/-- Accepts when `r` would refuse, and takes nothing. -/
def notHere (r : ReaderOf σ α) : ReaderOf σ Unit :=
  fun t =>
    match r t with
    | some _ => none
    | none => some ((), t)

/-- Repeats a reader as often as it takes something. -/
def manyOf (r : ReaderOf σ α) (t : List σ) : List α × List σ :=
  match r t with
  | none => ([], t)
  | some (a, rest) =>
    if rest.length < t.length then
      let (as, last) := manyOf r rest
      (a :: as, last)
    else ([], t)
termination_by t.length

/-- Repeats a reader as often as it takes something. -/
def many (r : ReaderOf σ α) : ReaderOf σ (List α) :=
  fun t => some (manyOf r t)

/-- Repeats a reader as often as it takes something, at least once. -/
def many1 (r : ReaderOf σ α) : ReaderOf σ (List α) := do
  let first ← r
  let rest ← many r
  return first :: rest

/-- Repeats a reader until it gives nothing or takes nothing. What the last turn
took stays taken, and the repetition fails when a turn is refused. -/
def untilNone (r : ReaderOf σ (Option α)) (t : List σ) : Option (List α × List σ) :=
  match r t with
  | none => none
  | some (none, rest) => some ([], rest)
  | some (some a, rest) =>
    if rest.length < t.length then
      (untilNone r rest).map fun (as, last) => (a :: as, last)
    else some ([a], rest)
termination_by t.length

/-- Reads at least one item, with `separator` between neighbours. -/
def separatedBy (item : ReaderOf σ α) (separator : ReaderOf σ β) : ReaderOf σ (List α) := do
  let first ← item
  let rest ← many (separator *> item)
  return first :: rest

/-- Reads a list of symbols to its end. -/
def readAll (r : ReaderOf σ α) (t : List σ) : Option α :=
  match r t with
  | some (a, []) => some a
  | _ => none

end Reader

end Folio
