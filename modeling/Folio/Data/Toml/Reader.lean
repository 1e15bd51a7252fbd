import Folio.Data.Toml.Scalar

/-!
# Reading TOML

`Toml.read?` reads a document of TOML 1.1: pairs and headers, one a line. Arrays
and tables in braces may span lines, may end in a comma, and nest at most eighty
deep.
-/

namespace Folio.Toml

/-- Skips blanks inside a line. -/
def spaces : Reader Unit := do
  let _ ← Reader.run isSpace

/-- Reads a comment, up to the end of its line. -/
def comment : Reader Unit := do
  Reader.char '#'
  let _ ← Reader.run isPrintable

/-- Skips blanks, comments and line breaks. -/
def gaps : Reader Unit := do
  let _ ← Reader.many do
    let _ ← Reader.run1 isSpace <|> newline <|> (do comment; return [])

/-- Reads one part of a key. -/
def simpleKey : Reader Text :=
  Reader.run1 (fun c => c.isAlphanum || c = '_' || c = '-') <|> basicString <|> literalString

/-- Reads a key: its parts but the last, and the last. -/
def key : Reader (List Text × Text) := do
  let parts ← Reader.separatedBy simpleKey do
    spaces
    Reader.char '.'
    spaces
  match parts.getLast? with
  | some last => return (parts.dropLast, last)
  | none => Reader.refuse

/-- Reads a key and its value. -/
def pair (value : Reader Item) : Reader Pair := do
  let (path, last) ← key
  spaces
  Reader.char '='
  spaces
  return ⟨path, last, ← value⟩

/-- Reads items between brackets or braces, with commas between them and maybe
one behind the last. -/
def listOf {α : Type} (openChar close : Char) (item : Reader α) : Reader (List α) := do
  Reader.char openChar
  gaps
  match ← Reader.optional item with
  | none =>
    Reader.char close
    return []
  | some first =>
    gaps
    let rest ← Reader.many do
      Reader.char ','
      gaps
      let i ← item
      gaps
      return i
    let _ ← Reader.optional (Reader.char ',' *> gaps)
    Reader.char close
    return first :: rest

/-- Reads a value whose parts are read by `inner`. Without `inner` arrays and
tables are refused. -/
def valueOf? (inner : Option (Reader Item)) : Reader Item := do
  match ← Reader.peek?, inner with
  | some '[', some r => return .array (← listOf '[' ']' r)
  | some '\x7b', some r =>
    match inline? (← listOf '\x7b' '\x7d' (pair r)) with
    | some table => return table
    | none => Reader.refuse
  | some c, _ => if c = '"' ∨ c = '\'' then return .text (← string) else atom
  | none, _ => Reader.refuse

/-- Reads a value in which arrays and tables nest up to the given depth. -/
def value : Nat → Reader Item
  | 0 => valueOf? none
  | depth + 1 => valueOf? (some (value depth))

/-- Reads the end of a line. -/
def lineEnd : Reader Unit := do
  spaces
  let _ ← Reader.optional comment
  (do let _ ← newline) <|> Reader.atEnd

/-- Reads a line that holds a pair. -/
def pairLine : Reader Pair := do
  gaps
  let p ← pair (value 80)
  lineEnd
  return p

/-- Reads a header and the pairs below it. -/
def tableSection : Reader Section := do
  gaps
  Reader.char '['
  let double ← Reader.optional (Reader.char '[')
  spaces
  let (path, last) ← key
  spaces
  Reader.char ']'
  if double.isSome then Reader.char ']'
  lineEnd
  return ⟨path, last, double.isSome, ← Reader.many pairLine⟩

/-- Reads the pairs in front of the first header, and the sections. -/
def document : Reader (List Pair × List Section) := do
  let pairs ← Reader.many pairLine
  let sections ← Reader.many tableSection
  gaps
  return (pairs, sections)

/-- Reads a document. A byte order mark in front of it is skipped. -/
def read? (t : Text) : Option (List (Text × Item)) := do
  let body := if t.head? = some (Char.ofNat 0xFEFF) then t.drop 1 else t
  let (pairs, sections) ← Reader.readAll document body
  assemble? pairs sections

end Folio.Toml
