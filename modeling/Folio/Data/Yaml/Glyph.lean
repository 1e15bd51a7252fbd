import Folio.Text.Reader

/-!
# Characters that know their place

The layout of a YAML document carries meaning, so a document is read as a list
of glyphs: characters with the line and the column they stand in. Line breaks
are made uniform first. `Glyph.ofText?` refuses a text that holds a control
character.
-/

namespace Folio.Yaml

/-- A character, the number of characters before it, and its line and column,
all counted from zero. -/
structure Glyph where
  char : Char
  index : Nat
  line : Nat
  column : Nat
deriving DecidableEq

/-- Takes a value off the front of a list of glyphs. -/
abbrev Lexeme (α : Type) := ReaderOf Glyph α

/-- The characters that may stand in a document. -/
def isAllowed (c : Char) : Bool :=
  let n := c.toNat
  n = 0x09 || n = 0x0A || n = 0x0D || (0x20 ≤ n && n ≤ 0x7E) || n = 0x85 ||
    (0xA0 ≤ n && n ≤ 0xD7FF) || (0xE000 ≤ n && n ≤ 0xFFFD) || 0x10000 ≤ n

/-- Writes every line break as a newline, but for the line and the paragraph
separator, which stay what they are. -/
def uniformBreaks : Text → Text
  | [] => []
  | '\r' :: '\n' :: rest => '\n' :: uniformBreaks rest
  | '\r' :: rest => '\n' :: uniformBreaks rest
  | '\u0085' :: rest => '\n' :: uniformBreaks rest
  | c :: rest => c :: uniformBreaks rest

/-- Whether a character ends a line, once the breaks are uniform. -/
def isBreak (c : Char) : Bool :=
  c = '\n' || c = '\u2028' || c = '\u2029'

/-- Whether a character is a blank inside a line. -/
def isSpace (c : Char) : Bool :=
  c = ' ' || c = '\t'

namespace Glyph

/-- Gives each character its place. -/
def number (index line column : Nat) : Text → List Glyph
  | [] => []
  | c :: rest =>
    ⟨c, index, line, column⟩ ::
      if isBreak c then number (index + 1) (line + 1) 0 rest
      else number (index + 1) line (column + 1) rest

/-- The glyphs of a document. -/
def ofText? (t : Text) : Option (List Glyph) :=
  if t.all isAllowed then some (number 0 0 0 (uniformBreaks t)) else none

/-- The characters of glyphs. -/
def chars (gs : List Glyph) : Text :=
  gs.map Glyph.char

/-- Whether a glyph is a blank inside a line. -/
def isSpace (g : Glyph) : Bool :=
  Yaml.isSpace g.char

/-- Whether a glyph ends its line. -/
def isBreak (g : Glyph) : Bool :=
  Yaml.isBreak g.char

end Glyph

/-- Whether a list of glyphs begins with a blank or a break, or is empty. -/
def atGap : List Glyph → Bool
  | [] => true
  | g :: _ => g.isSpace || g.isBreak

/-- Whether a list of glyphs begins with one of the characters. -/
def atOneOf (cs : Text) : List Glyph → Bool
  | [] => false
  | g :: _ => cs.contains g.char

/-- Whether a list of glyphs begins with three times `c` at the start of a line,
with a gap behind. -/
def atMarker (c : Char) (t : List Glyph) : Bool :=
  match t with
  | g :: g' :: g'' :: rest =>
    g.column = 0 && g.char = c && g'.char = c && g''.char = c && atGap rest
  | _ => false

/-- Whether a list of glyphs begins with the marker that starts or that ends a
document. -/
def atDocumentMarker (t : List Glyph) : Bool :=
  atMarker '-' t || atMarker '.' t

namespace Lexeme

/-- A fact about the rest, which stays where it is. -/
def sees (p : List Glyph → Bool) : Lexeme Bool :=
  fun t => some (p t, t)

/-- Takes the character `c`. -/
def char (c : Char) : Lexeme Unit := do
  let _ ← Reader.satisfy fun g : Glyph => g.char = c

/-- Takes the longest run of characters that satisfy `p`. -/
def run (p : Char → Bool) : Lexeme Text := do
  return Glyph.chars (← Reader.run fun g : Glyph => p g.char)

/-- Takes a comment, up to the end of its line. -/
def comment : Lexeme Unit := do
  if ← sees (atOneOf ['#']) then
    let _ ← run (!isBreak ·)

/-- Takes a line break, when there is one. -/
def break? : Lexeme (Option Char) := do
  let g ← Reader.optional (Reader.satisfy Glyph.isBreak)
  return g.map Glyph.char

end Lexeme

end Folio.Yaml
