import Folio.Data.Kdl.Text

/-!
# Reading KDL

`Kdl.read?` reads the nodes of a document. A node is its name and then, after
blanks, arguments and properties, and at last a block of children; it ends with
its line, with a semicolon, or with the block it stands in. A slash and a dash in
front of a node, an entry or a block make a comment of it, and a backslash
continues a line.
-/

namespace Folio.Kdl

/-- Reads a comment between slashes and stars, which may hold further ones, up
to the given depth. -/
def blockComment : Nat → Reader Unit
  | 0 => Reader.refuse
  | depth + 1 => do
    Reader.literal ['/', '*']
    let _ ← Reader.many (blockComment depth <|> do
      Reader.notHere (Reader.literal ['*', '/'] <|> Reader.literal ['/', '*'])
      let _ ← Reader.anyChar)
    Reader.literal ['*', '/']

/-- Reads a blank or a comment inside a line. -/
def blank : Reader Unit := fun t =>
  ((do let _ ← Reader.run1 isSpace) <|> blockComment t.length : Reader Unit) t

/-- Reads a comment up to the end of its line. -/
def lineComment : Reader Unit := do
  Reader.literal ['/', '/']
  let _ ← Reader.run (!isNewline ·)
  newline <|> Reader.atEnd

/-- Reads a backslash that continues the line. -/
def continuation : Reader Unit := do
  Reader.char '\\'
  let _ ← Reader.many blank
  lineComment <|> newline <|> Reader.atEnd

/-- Reads one blank between the parts of a node. -/
def nodeSpace : Reader Unit :=
  blank <|> continuation

/-- Reads blanks between the parts of a node, if any. -/
def spaces : Reader Unit := do
  let _ ← Reader.many nodeSpace

/-- Reads blanks between the parts of a node, at least one. -/
def spaces1 : Reader Unit := do
  let _ ← Reader.many1 nodeSpace

/-- Reads blanks and line breaks between nodes, if any. -/
def lineSpaces : Reader Unit := do
  let _ ← Reader.many (nodeSpace <|> newline <|> lineComment)

/-- Reads the mark that makes a comment of what follows. -/
def slashdash : Reader Unit := do
  Reader.literal ['/', '-']
  lineSpaces

/-- Reads a type, which says nothing about the value. -/
def typeMark : Reader Unit := do
  Reader.char '('
  spaces
  let _ ← string
  spaces
  Reader.char ')'

/-- Reads a value. -/
def scalar : Reader Scalar := do
  let _ ← Reader.optional (typeMark *> spaces)
  keyword <|> number <|> (do return .text (← string))

/-- Reads a property. -/
def property : Reader NodeEntry := do
  let key ← name
  spaces
  Reader.char '='
  spaces
  return ⟨some key, ← scalar⟩

/-- Reads an argument or a property. -/
def nodeEntry : Reader NodeEntry :=
  property <|> (do return ⟨none, ← scalar⟩)

/-- Reads an entry with the blanks before it; one that is commented out gives
nothing. -/
def spacedEntry : Reader (List NodeEntry) := do
  spaces1
  match ← Reader.optional slashdash with
  | some () =>
    let _ ← nodeEntry
    return []
  | none => return [← nodeEntry]

/-- Reads the end of a node. The brace that closes a block ends a node too, and
stays where it is. -/
def nodeEnd : Reader Unit := do
  match ← Reader.peek? with
  | some '\x7d' => return ()
  | _ => Reader.char ';' <|> lineComment <|> newline <|> Reader.atEnd

/-- Reads a node whose block of children is read by `block`. -/
def nodeOf (block : Reader (List Node)) : Reader Node := do
  let _ ← Reader.optional (typeMark *> spaces)
  let nodeName ← name
  let entries ← Reader.many spacedEntry
  let hidden : Reader Unit := do
    spaces
    slashdash
    let _ ← block
  let _ ← Reader.many hidden
  let children ← Reader.optional (spaces *> block)
  let _ ← Reader.many hidden
  spaces
  nodeEnd
  return .mk nodeName entries.flatten children

/-- Reads the nodes of a document or a block; a node that is commented out gives
nothing. -/
def nodesOf (block : Reader (List Node)) : Reader (List Node) := do
  let nodes ← Reader.many do
    lineSpaces
    match ← Reader.optional slashdash with
    | some () =>
      let _ ← nodeOf block
      return []
    | none => return [← nodeOf block]
  lineSpaces
  return nodes.flatten

/-- Reads the nodes of a document in which blocks nest up to the given depth. -/
def nodes : Nat → Reader (List Node)
  | 0 => nodesOf Reader.refuse
  | depth + 1 => nodesOf (Reader.char '\x7b' *> nodes depth <* Reader.char '\x7d')

/-- Reads a document. A byte order mark in front of it is skipped. -/
def read? (t : Text) : Option (List Node) :=
  let body := if t.head? = some (Char.ofNat 0xFEFF) then t.drop 1 else t
  Reader.readAll (nodes body.length) body

end Folio.Kdl
