import Folio.Data.Yaml.Scalar

/-!
# Tokens of YAML

`Token.ofGlyphs?` cuts a document into tokens. The columns of lines open and
close collections: a token to the right of the innermost open collection may
open one, and a token to its left closes it.

That a scalar is a key shows only at the colon behind it. The lexer therefore
remembers for each bracket level where a key might have begun, and puts the token
`key` there, and the start of a mapping if need be, once it meets the colon. A
key stands on one line and has at most 1024 characters.
-/

namespace Folio.Yaml

/-- The octets of a tag. -/
abbrev Tag := List UInt8

/-- A token. -/
inductive Token where
  | version (major minor : Nat)
  | tagHandle (handle : Text) (start : Tag)
  | documentStart
  | documentEnd
  | sequenceStart
  | mappingStart
  | blockEnd
  | flowSequenceStart
  | flowSequenceEnd
  | flowMappingStart
  | flowMappingEnd
  | entry
  | comma
  | key
  | value
  | alias (name : Text)
  | anchor (name : Text)
  | tag (handle : Text) (suffix : Tag)
  | scalar (isPlain : Bool) (text : Text)
deriving DecidableEq

/-! ## Names, tags and directives -/

/-- The characters of names. -/
def isNameChar (c : Char) : Bool :=
  c.isAlphanum || c = '_' || c = '-'

/-- Reads the name of an anchor. -/
def anchorName : Lexeme Text := do
  let _ ← Reader.next
  let name ← Lexeme.run isNameChar
  let ends ← Lexeme.sees fun t =>
    atGap t || atOneOf ['?', ':', ',', ']', '\x7d', '%', '@', '\x60'] t
  if name.isEmpty || !ends then Reader.refuse
  return name

/-- The number of octets of the character that begins with the given one. -/
def octetCount? (o : Nat) : Option Nat :=
  if o < 0x80 then some 1
  else if 0xC0 ≤ o ∧ o < 0xE0 then some 2
  else if 0xE0 ≤ o ∧ o < 0xF0 then some 3
  else if 0xF0 ≤ o ∧ o < 0xF8 then some 4
  else none

/-- Reads a percent sign and two hexadecimal digits. -/
def octet : Lexeme Nat := fun t =>
  match t with
  | p :: g :: g' :: rest =>
    match p.char, Quoted.hexValue? [g.char, g'.char] with
    | '%', some n => some (n, rest)
    | _, _ => none
  | _ => none

/-- Reads `n` further octets of a character. -/
def trailingOctets : Nat → Lexeme Tag
  | 0 => return []
  | n + 1 => do
    let o ← octet
    if o < 0x80 || 0xC0 ≤ o then Reader.refuse
    return o.toUInt8 :: (← trailingOctets n)

/-- Reads an escaped character of a tag. -/
def escapedOctets : Lexeme Tag := do
  let o ← octet
  match octetCount? o with
  | none => Reader.refuse
  | some n => return o.toUInt8 :: (← trailingOctets (n - 1))

/-- The characters of a tag. Brackets and commas count only where nothing else
ends the tag. -/
def isTagChar (brackets : Bool) (c : Char) : Bool :=
  isNameChar c ||
    [';', '/', '?', ':', '@', '&', '=', '+', '$', '.', '%', '!', '~', '*', '\'', '(', ')'].contains
      c ||
    (brackets && [',', '[', ']'].contains c)

/-- The octet of a character of ASCII. -/
def octetOf (c : Char) : UInt8 :=
  c.toNat.toUInt8

/-- Reads the characters of a tag. A tag ends at an octet that is zero. -/
def tagChars (brackets : Bool) : Lexeme (List Tag) :=
  Reader.untilNone do
    if ← Lexeme.sees (atOneOf ['%']) then return some (← escapedOctets)
    else
      let g ← Reader.optional (Reader.satisfy fun g : Glyph => isTagChar brackets g.char)
      return g.map fun g => [octetOf g.char]

/-- The octets of a tag up to the first that is zero. -/
def cutTag (parts : List Tag) : Tag :=
  parts.flatten.takeWhile (· ≠ 0)

/-- Reads a tag that may not be empty. -/
def fullTag (brackets : Bool) : Lexeme Tag := do
  let parts ← tagChars brackets
  if parts.isEmpty then Reader.refuse
  return cutTag parts

/-- Reads an exclamation mark with the name behind it and maybe another mark. -/
def handle : Lexeme Text := do
  Lexeme.char '!'
  let name ← Lexeme.run isNameChar
  if ← Lexeme.sees (atOneOf ['!']) then
    Lexeme.char '!'
    return '!' :: name ++ ['!']
  else return '!' :: name

/-- Reads a tag: `!<tag>`, `!name!suffix` or `!suffix`. -/
def tagToken (inFlow : Bool) : Lexeme Token := do
  let verbatim ← Lexeme.sees fun t => atOneOf ['<'] (t.drop 1)
  let token ←
    if verbatim then
      let _ ← Reader.next
      let _ ← Reader.next
      let tag ← fullTag true
      Lexeme.char '>'
      pure (Token.tag [] tag)
    else
      let h ← handle
      if h.length ≥ 2 && h.getLast? = some '!' then pure (Token.tag h (← fullTag false))
      else
        let tag := cutTag ((h.drop 1).map (fun c => [octetOf c]) ++ (← tagChars false))
        pure (if tag.isEmpty then Token.tag [] [octetOf '!'] else Token.tag ['!'] tag)
  let ends ← Lexeme.sees fun t => atGap t || (inFlow && atOneOf [','] t)
  if !ends then Reader.refuse
  return token

/-- Reads a number of a version, which has at most nine digits. -/
def versionNumber : Lexeme Nat := do
  let digits ← Lexeme.run Char.isDigit
  if digits.isEmpty || 9 < digits.length then Reader.refuse
  return digits.foldl (fun n c => 10 * n + (c.toNat - '0'.toNat)) 0

/-- Reads a directive, which takes up its line. -/
def directive : Lexeme Token := do
  Lexeme.char '%'
  let name ← Lexeme.run isNameChar
  if ← Lexeme.sees fun t => !atGap t then Reader.refuse
  let _ ← Lexeme.run isSpace
  let token ← match String.ofList name with
    | "YAML" => do
      let major ← versionNumber
      Lexeme.char '.'
      pure (Token.version major (← versionNumber))
    | "TAG" => do
      let h ← handle
      if h.getLast? ≠ some '!' then Reader.refuse
      let blanks ← Lexeme.run isSpace
      if blanks.isEmpty then Reader.refuse
      let start ← fullTag true
      if ← Lexeme.sees fun t => !atGap t then Reader.refuse
      pure (Token.tagHandle h start)
    | _ => Reader.refuse
  let _ ← Lexeme.run isSpace
  Lexeme.comment
  if ← Lexeme.sees fun t => !atGap t then Reader.refuse
  let _ ← Lexeme.break?
  return token

/-! ## The state of the lexer -/

/-- Where a key may have begun: the number of tokens and characters before it,
and its place. A key is required where a mapping needs its next one. -/
structure Key where
  required : Bool
  tokens : Nat
  start : Glyph

/-- The state of a lexer. -/
structure Lexer where
  /-- The columns of the open block collections, innermost first. -/
  columns : List Nat := []
  /-- Whether a key may begin here. -/
  keyAllowed : Bool := true
  /-- Where a key may have begun inside the innermost brackets. -/
  key : Option Key := none
  /-- The same for the brackets around them, innermost first. -/
  outerKeys : List (Option Key) := []
  /-- The tokens so far, the last one first. -/
  tokens : List Token := []

namespace Lexer

/-- Whether the lexer is inside brackets or braces. -/
def inFlow (s : Lexer) : Bool :=
  !s.outerKeys.isEmpty

/-- The first column inside the innermost block collection. -/
def margin (s : Lexer) : Nat :=
  (s.columns.head?.map (· + 1)).getD 0

/-- Adds a token. -/
def push (s : Lexer) (t : Token) : Lexer :=
  { s with tokens := t :: s.tokens }

/-- Adds a token behind the first `n`. -/
def pushAfter (s : Lexer) (n : Nat) (t : Token) : Lexer :=
  let later := s.tokens.length - n
  { s with tokens := s.tokens.take later ++ t :: s.tokens.drop later }

/-- Opens a block collection in the given column, unless one is open there. Its
token goes behind the first `n`. -/
def openBlock (s : Lexer) (column n : Nat) (t : Token) : Lexer :=
  if s.inFlow || (s.columns.head?.map fun c => decide (column ≤ c)).getD false then s
  else { s.pushAfter n t with columns := column :: s.columns }

/-- Closes the block collections to the right of a column. -/
def closeBlocks (s : Lexer) (column : Nat) : Lexer :=
  if s.inFlow then s
  else
    let closed := s.columns.takeWhile (column < ·)
    { s with
      columns := s.columns.drop closed.length
      tokens := List.replicate closed.length Token.blockEnd ++ s.tokens }

/-- Closes all block collections. -/
def closeAll (s : Lexer) : Lexer :=
  if s.inFlow then s
  else
    { s with
      columns := []
      tokens := List.replicate s.columns.length Token.blockEnd ++ s.tokens }

/-- Gives up the key that may have begun, unless one is required. -/
def dropKey (s : Lexer) : Option Lexer :=
  if (s.key.map Key.required).getD false then none else some { s with key := none }

/-- Notes that a key may begin here. -/
def noteKey (s : Lexer) (g : Glyph) : Option Lexer :=
  if s.keyAllowed then
    let required := !s.inFlow && s.columns.head? = some g.column
    (s.dropKey).map fun s => { s with key := some ⟨required, s.tokens.length, g⟩ }
  else some s

/-- Keeps a key that may still end at the glyph `g`, and gives up any other; one
that is required cannot be given up. -/
def fresh (g : Glyph) (k : Option Key) : Option (Option Key) :=
  match k with
  | none => some none
  | some k =>
    if k.start.line < g.line || k.start.index + 1024 < g.index then
      if k.required then none else some none
    else some (some k)

/-- Gives up the keys that can no longer end. -/
def dropStale (s : Lexer) (g : Glyph) : Option Lexer := do
  return { s with key := ← fresh g s.key, outerKeys := ← s.outerKeys.mapM (fresh g) }

/-! ## One token -/

/-- Skips blanks and comments up to the next token. A tab is a blank inside
brackets and where no key may begin. A key may begin on a new line. -/
def skipGaps (s : Lexer) : Lexeme Lexer := do
  let line (tabs : Bool) : Lexeme (Option Char) := do
    let _ ← Lexeme.run fun c => c = ' ' || (tabs && c = '\t')
    Lexeme.comment
    Lexeme.break?
  match ← line (s.inFlow || !s.keyAllowed) with
  | none => return s
  | some _ =>
    let _ ← Reader.untilNone (line s.inFlow)
    return { s with keyAllowed := s.keyAllowed || !s.inFlow }

/-- The start or the end of a document. -/
def marker (s : Lexer) (t : Token) : Lexeme Lexer := do
  let s ← s.closeAll.dropKey
  for _ in [1, 2, 3] do
    let _ ← Reader.next
  return { s with keyAllowed := false }.push t

/-- An opening bracket or brace. -/
def openFlow (s : Lexer) (g : Glyph) (t : Token) : Option Lexer := do
  let s ← s.noteKey g
  return { s with key := none, outerKeys := s.key :: s.outerKeys, keyAllowed := true }.push t

/-- A closing bracket or brace. -/
def closeFlow (s : Lexer) (t : Token) : Option Lexer := do
  let s ← s.dropKey
  let key := s.outerKeys.headD s.key
  return { s with key := key, outerKeys := s.outerKeys.drop 1, keyAllowed := false }.push t

/-- A token that stands where a block collection begins or goes on. -/
def blockItem (s : Lexer) (g : Glyph) (start : Token) : Option Lexer :=
  if s.inFlow then some s
  else if s.keyAllowed then some (s.openBlock g.column s.tokens.length start)
  else none

/-- The dash of an entry. -/
def entry (s : Lexer) (g : Glyph) : Option Lexer := do
  let s ← (← s.blockItem g .sequenceStart).dropKey
  return { s with keyAllowed := true }.push .entry

/-- The question mark of a key. -/
def keyMark (s : Lexer) (g : Glyph) : Option Lexer := do
  let s ← (← s.blockItem g .mappingStart).dropKey
  return { s with keyAllowed := !s.inFlow }.push .key

/-- The colon of a value. -/
def valueMark (s : Lexer) (g : Glyph) : Option Lexer := do
  match s.key with
  | some k =>
    let s := (s.pushAfter k.tokens .key).openBlock k.start.column k.tokens .mappingStart
    return { s with key := none, keyAllowed := false }.push .value
  | none =>
    let s ← s.blockItem g .mappingStart
    return { s with keyAllowed := !s.inFlow }.push .value

/-- A token that may be a key. -/
def keyToken (s : Lexer) (g : Glyph) (token : Lexeme Token) : Lexeme Lexer := do
  let s ← s.noteKey g
  return { s with keyAllowed := false }.push (← token)

/-- A plain scalar, behind which a key may begin if a line ends there. -/
def plainToken (s : Lexer) (g : Glyph) : Lexeme Lexer := do
  let s ← s.noteKey g
  let p ← plain s.inFlow s.margin
  return { s with keyAllowed := p.endsLine }.push (.scalar true p.text)

/-- A block scalar. -/
def blockToken (s : Lexer) (folded : Bool) : Lexeme Lexer := do
  let s ← s.dropKey
  let text ← block folded s.columns.head?
  return { s with keyAllowed := true }.push (.scalar false text)

/-- Takes one character as a token. -/
def sign (next : Option Lexer) : Lexeme Lexer := do
  let _ ← Reader.next
  next

/-- The characters that begin no plain scalar. -/
def isIndicator (c : Char) : Bool :=
  ['-', '?', ':', ',', '[', ']', '\x7b', '\x7d', '#', '&', '*', '!', '|', '>', '\'', '"', '%', '@',
    '\x60'].contains c

/-- Whether a plain scalar begins with `g`. -/
def startsPlain (s : Lexer) (g : Glyph) (rest : List Glyph) : Bool :=
  !(isIndicator g.char || g.isSpace || g.isBreak) ||
    (g.char = '-' && !(rest.head?.map Glyph.isSpace).getD false) ||
    (!s.inFlow && (g.char = '?' || g.char = ':') && !atGap rest)

/-- Reads the token that begins with the glyph `g`, which has `rest` behind it. -/
def readToken (s : Lexer) (g : Glyph) (rest : List Glyph) : Lexeme Lexer := do
  let s := (← s.dropStale g).closeBlocks g.column
  let t := g :: rest
  let apart := s.inFlow || atGap rest
  if g.column = 0 && g.char = '%' then
    let s ← s.closeAll.dropKey
    return { s with keyAllowed := false }.push (← directive)
  else if atMarker '-' t then s.marker .documentStart
  else if atMarker '.' t then s.marker .documentEnd
  else if g.char = '[' then sign (s.openFlow g .flowSequenceStart)
  else if g.char = '\x7b' then sign (s.openFlow g .flowMappingStart)
  else if g.char = ']' then sign (s.closeFlow .flowSequenceEnd)
  else if g.char = '\x7d' then sign (s.closeFlow .flowMappingEnd)
  else if g.char = ',' then sign (s.dropKey.map fun s => { s with keyAllowed := true }.push .comma)
  else if g.char = '-' && atGap rest then sign (s.entry g)
  else if g.char = '?' && apart then sign (s.keyMark g)
  else if g.char = ':' && apart then sign (s.valueMark g)
  else if g.char = '*' then s.keyToken g (Token.alias <$> anchorName)
  else if g.char = '&' then s.keyToken g (Token.anchor <$> anchorName)
  else if g.char = '!' then s.keyToken g (tagToken s.inFlow)
  else if g.char = '|' && !s.inFlow then s.blockToken false
  else if g.char = '>' && !s.inFlow then s.blockToken true
  else if g.char = '\'' || g.char = '"' then s.keyToken g (Token.scalar false <$> quoted g.char)
  else if s.startsPlain g rest then s.plainToken g
  else Reader.refuse

/-- The tokens, once the document has ended. -/
def finish (s : Lexer) : Option (List Token) :=
  s.closeAll.dropKey.map fun s => s.tokens.reverse

/-- Reads tokens up to the end. -/
def readAll (s : Lexer) (t : List Glyph) : Option (List Token) :=
  match s.skipGaps t with
  | none => none
  | some (s, []) => s.finish
  | some (s, g :: rest) =>
    match s.readToken g rest (g :: rest) with
    | none => none
    | some (s, later) => if later.length < t.length then s.readAll later else none
termination_by t.length

end Lexer

/-- The tokens of a document. A byte order mark in front is skipped; it counts as
a character of its line. -/
def Token.ofGlyphs? (t : List Glyph) : Option (List Token) :=
  Lexer.readAll {} (if atOneOf [Char.ofNat 0xFEFF] t then t.drop 1 else t)

end Folio.Yaml
