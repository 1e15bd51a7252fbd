import Folio.Data.Yaml.Glyph
import Folio.Text.Quoted

/-!
# Scalars of YAML

A scalar is plain, quoted, or a block of lines. A plain or quoted scalar may
span lines, which `fold` joins; a block keeps its lines (`|`) or joins them
(`>`).
-/

namespace Folio.Yaml

/-- What stands between two words of a scalar: blanks, or line breaks. -/
structure Gap where
  spaces : Text
  breaks : Text

namespace Gap

/-- Whether a gap is empty. -/
def isEmpty (g : Gap) : Bool :=
  g.spaces.isEmpty && g.breaks.isEmpty

/-- Joins lines: a single newline becomes a blank, and of several the first is
dropped. -/
def fold : Text → Text
  | ['\n'] => [' ']
  | '\n' :: rest => rest
  | breaks => breaks

/-- The text of a gap. -/
def text (g : Gap) : Text :=
  if g.breaks.isEmpty then g.spaces else fold g.breaks

end Gap

/-- Reads the blanks and breaks up to the next word. Blanks on later lines are
dropped; a tab among them is refused at a column for which `tabRefused` holds. -/
def gap (tabRefused : Nat → Bool) : Lexeme Gap := do
  let spaces ← Lexeme.run isSpace
  let breaks ← Reader.untilNone do
    match ← Lexeme.break? with
    | none => return none
    | some c =>
      let blanks ← Reader.run Glyph.isSpace
      if blanks.any fun g => g.char = '\t' && tabRefused g.column then Reader.refuse
      return some c
  return ⟨spaces, breaks⟩

/-! ## Plain scalars -/

/-- Whether a word of a plain scalar ends here. In brackets and braces, a comma
or a bracket ends it. -/
def endsWord (inFlow : Bool) : List Glyph → Bool
  | [] => true
  | g :: rest =>
    g.isSpace || g.isBreak || (g.char = ':' && atGap rest) ||
      (inFlow && [',', '[', ']', '\x7b', '\x7d'].contains g.char)

/-- Reads a word of a plain scalar. In brackets and braces, a colon in front of
a bracket or a comma is refused. -/
def word (inFlow : Bool) : Lexeme Text :=
  Reader.untilNone fun t =>
    match t with
    | [] => some (none, t)
    | g :: rest =>
      if inFlow && g.char = ':' && atOneOf [',', '?', '[', ']', '\x7b', '\x7d'] rest then none
      else if endsWord inFlow t then some (none, t)
      else some (some g.char, rest)

/-- A plain scalar. `endsLine` tells that line breaks stand behind its last
word. -/
structure Plain where
  text : Text
  endsLine : Bool

/-- Reads a gap and the word behind it. Outside brackets and braces, the word is
empty when it stands left of the column `margin`. -/
def plainPart (inFlow : Bool) (margin : Nat) : Lexeme (Option (Gap × Text)) := do
  let g ← gap (· < margin)
  if g.isEmpty then return none
  let outside ← Lexeme.sees fun t =>
    atDocumentMarker t || atOneOf ['#'] t ||
      (!inFlow && (t.head?.map fun g => decide (g.column < margin)).getD false)
  if outside then return some (g, []) else return some (g, ← word inFlow)

/-- Reads a plain scalar. -/
def plain (inFlow : Bool) (margin : Nat) : Lexeme Plain := do
  let first ← word inFlow
  let parts ← Reader.untilNone (plainPart inFlow margin)
  let joined := parts.flatMap fun (g, w) => if w.isEmpty then [] else g.text ++ w
  let endsLine := parts.any fun (g, w) => w.isEmpty && !g.breaks.isEmpty
  return ⟨first ++ joined, endsLine⟩

/-! ## Quoted scalars -/

/-- The character that a one-letter escape stands for. -/
def escape? : Char → Option Char
  | '0' => some '\x00'
  | 'a' => some '\x07'
  | 'b' => some '\x08'
  | 't' => some '\t'
  | '\t' => some '\t'
  | 'n' => some '\n'
  | 'v' => some '\x0b'
  | 'f' => some '\x0c'
  | 'r' => some '\r'
  | 'e' => some '\x1b'
  | ' ' => some ' '
  | '"' => some '"'
  | '/' => some '/'
  | '\\' => some '\\'
  | 'N' => some '\u0085'
  | '_' => some '\u00a0'
  | 'L' => some '\u2028'
  | 'P' => some '\u2029'
  | _ => none

/-- Reads the hexadecimal number of a character, `n` digits long. -/
def hexEscape (n : Nat) : Lexeme Char := fun t =>
  if (t.take n).length = n then
    ((Quoted.hexValue? (Glyph.chars (t.take n))).bind Quoted.scalar?).map fun c => (c, t.drop n)
  else none

/-- Reads what stands behind a backslash. A line break there joins two lines
without a blank. -/
def escaped : Lexeme Text := do
  if ← Lexeme.sees fun t => (t.head?.map Glyph.isBreak).getD false then
    let g ← gap fun _ => false
    return g.breaks.drop 1
  else
    let g ← Reader.next
    match g.char with
    | 'x' => return [← hexEscape 2]
    | 'u' => return [← hexEscape 4]
    | 'U' => return [← hexEscape 8]
    | c =>
      match escape? c with
      | some d => return [d]
      | none => Reader.refuse

/-- Reads a part of a scalar in quotes `q`, or the quote that closes it. -/
def quotedPart (q : Char) : Lexeme (Option Text) := do
  if ← Lexeme.sees atDocumentMarker then Reader.refuse
  let g ← gap fun _ => false
  if !g.isEmpty then return some g.text
  let c ← Reader.next
  if c.char = q then
    if q = '\'' && (← Lexeme.sees (atOneOf [q])) then
      Lexeme.char q
      return some [q]
    else return none
  else if c.char = '\\' && q = '"' then return some (← escaped)
  else return some [c.char]

/-- Reads a scalar in quotes `q`. -/
def quoted (q : Char) : Lexeme Text := do
  Lexeme.char q
  let parts ← Reader.untilNone (quotedPart q)
  return parts.flatten

/-! ## Block scalars -/

/-- What becomes of the line breaks at the end of a block. -/
inductive Chomping where
  | strip
  | clip
  | keep
deriving DecidableEq

/-- A line of a block, the break that ends it, and the breaks of the empty lines
below it. -/
structure BlockLine where
  text : Text
  ending : Text
  empty : Text

namespace BlockLine

/-- Whether a line begins with a blank, so that it is never joined to another. -/
def isIndented (l : BlockLine) : Bool :=
  (l.text.head?.map isSpace).getD false

/-- The breaks between two lines of a block. -/
def between (folded : Bool) (l l' : BlockLine) : Text :=
  if folded && l.ending = ['\n'] && !l.isIndented && !l'.isIndented then
    if l.empty.isEmpty then [' '] else l.empty
  else l.ending ++ l.empty

/-- The text of a block but for the breaks at its end. -/
def joined (folded : Bool) : List BlockLine → Text
  | [] => []
  | [l] => l.text
  | l :: l' :: rest => l.text ++ between folded l l' ++ joined folded (l' :: rest)

end BlockLine

/-- The breaks at the end of a block, that of the last line and those of the
empty lines below it, as far as they are kept. -/
def Chomping.tail (chomping : Chomping) (ending empty : Text) : Text :=
  match chomping with
  | .strip => []
  | .clip => ending
  | .keep => ending ++ empty

/-- Reads the line break of an empty line of a block and gives it with the
column it stands in. Blanks in front of it are dropped up to column `margin`, or
all of them while no margin is known. -/
def emptyLine (margin : Option Nat) : Lexeme (Option (Char × Nat)) := do
  let inside (g : Glyph) : Bool :=
    match margin with
    | none => true
    | some m => g.column < m
  let _ ← Reader.run fun g : Glyph => g.char = ' ' && inside g
  match ← Reader.peek? with
  | none => return none
  | some g =>
    if g.char = '\t' && inside g then Reader.refuse
    return (← Lexeme.break?).map fun c => (c, g.column)

/-- Reads the empty lines of a block and gives their breaks. -/
def emptyLines (margin : Nat) : Lexeme Text := do
  return (← Reader.untilNone (emptyLine (some margin))).map Prod.fst

/-- Reads a line of a block, when one stands at the column `margin`. -/
def blockLine (margin : Nat) : Lexeme (Option BlockLine) := do
  match ← Reader.peek? with
  | none => return none
  | some g =>
    if g.column ≠ margin then return none
    let text ← Lexeme.run (!isBreak ·)
    let ending ← Lexeme.break?
    return some ⟨text, ending.toList, ← emptyLines margin⟩

/-- Reads a sign for the chomping of a block. -/
def chompingSign : Lexeme (Option Chomping) := do
  let g ← Reader.optional (Reader.satisfy fun g : Glyph => g.char = '+' || g.char = '-')
  return g.map fun g => if g.char = '+' then .keep else .strip

/-- Reads a number of blanks, which is not zero. -/
def indentSign : Lexeme (Option Nat) := do
  match ← Reader.optional (Reader.satisfy fun g : Glyph => g.char.isDigit) with
  | none => return none
  | some g => if g.char = '0' then Reader.refuse else return some (g.char.toNat - '0'.toNat)

/-- Reads the head of a block: signs for the chomping and for the number of
blanks in front of its lines, in any order, and the rest of the line. -/
def blockHead : Lexeme (Chomping × Option Nat) := do
  let before ← chompingSign
  let blanks ← indentSign
  let after ← if before.isNone && blanks.isSome then chompingSign else pure none
  let _ ← Lexeme.run isSpace
  Lexeme.comment
  if ← Lexeme.sees fun t => !atGap t then Reader.refuse
  let _ ← Lexeme.break?
  return ((before <|> after).getD .clip, blanks)

/-- Reads a block. `outer` is the column of the collection that holds it. Unless
the head tells the margin, it is the column of the first line or, when an empty
line above goes farther, of the farthest. -/
def block (folded : Bool) (outer : Option Nat) : Lexeme Text := do
  let _ ← Reader.next
  let (chomping, blanks) ← blockHead
  let least := max 1 ((outer.map (· + 1)).getD 0)
  let known := blanks.map (· + outer.getD 0)
  let above ← Reader.untilNone (emptyLine known)
  let first := ((← Reader.peek?).map Glyph.column).getD 0
  let margin := known.getD (max least (max first ((above.map Prod.snd).foldl max 0)))
  let lines ← Reader.untilNone (blockLine margin)
  let breaks := above.map Prod.fst
  match lines.getLast? with
  | none => return chomping.tail [] breaks
  | some last =>
    return breaks ++ BlockLine.joined folded lines ++ chomping.tail last.ending last.empty

end Folio.Yaml
