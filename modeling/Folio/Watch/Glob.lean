import Folio.Text.Basic

/-!
# Patterns for paths

A `Glob` is a pattern such as `**/*.swp`. It is matched against the bytes of a
path, slashes included: `?` stands for any byte and `*` for any bytes. Two stars
that fill a component stand for any components. `Glob.parse` reads a pattern and
`Glob.accepts` matches a path.
-/

namespace Folio

/-- A part of a pattern. -/
inductive GlobPart where
  /-- A character. -/
  | char (c : Char)
  /-- `?`: any byte. -/
  | any
  /-- `*`: any bytes. -/
  | star
  /-- `**/` in front: any components, or none. -/
  | leading
  /-- `/**` at the end: a slash and anything. -/
  | trailing
  /-- `/**/` between parts: a slash, or components between two slashes. -/
  | between
  /-- `[a-z]`: a byte of one of the ranges, or of none of them. -/
  | oneOf (negated : Bool) (ranges : List (Char × Char))
  /-- `{a,b}`: one of the alternatives. -/
  | choice (alternatives : List (List GlobPart))
deriving Inhabited

/-- A pattern. -/
structure Glob where
  parts : List GlobPart

/-- Why a text is no pattern. -/
inductive GlobFault where
  | unclosedClass
  | invalidRange (first last : Char)
  | unopenedChoice
  | unclosedChoice
  | danglingEscape
deriving DecidableEq

/-- The text of a fault. -/
def GlobFault.message : GlobFault → String
  | .unclosedClass => "unclosed character class; missing ']'"
  | .invalidRange a b =>
    "invalid range; '" ++ String.ofList [a] ++ "' > '" ++ String.ofList [b] ++ "'"
  | .unopenedChoice =>
    "unopened alternate group; missing '\x7b' (maybe escape '\x7d' with '[\x7d]'?)"
  | .unclosedChoice =>
    "unclosed alternate group; missing '\x7d' (maybe escape '\x7b' with '[\x7b]'?)"
  | .danglingEscape => "dangling '\\'"

namespace Glob

/-! ## Reading a pattern -/

/-- An alternation that is not closed yet: its alternatives so far and the parts
in front of it, the last one first. -/
structure OpenChoice where
  alternatives : List (List GlobPart)
  before : List GlobPart

/-- A pattern that is being read: the parts of the innermost alternative, the
last one first, and the open alternations around it, innermost first. -/
structure Draft where
  parts : List GlobPart := []
  choices : List OpenChoice := []

namespace Draft

/-- Adds a part. -/
def add (d : Draft) (p : GlobPart) : Draft :=
  { d with parts := p :: d.parts }

/-- Opens an alternation. -/
def openChoice (d : Draft) : Draft :=
  ⟨[], ⟨[], d.parts⟩ :: d.choices⟩

/-- Starts the next alternative. Outside an alternation a comma is a character. -/
def comma (d : Draft) : Draft :=
  match d.choices with
  | [] => d.add (.char ',')
  | c :: outer => ⟨[], { c with alternatives := d.parts.reverse :: c.alternatives } :: outer⟩

/-- Closes an alternation. -/
def closeChoice (d : Draft) : Except GlobFault Draft :=
  match d.choices with
  | [] => .error .unopenedChoice
  | c :: outer =>
    .ok ⟨.choice (d.parts.reverse :: c.alternatives).reverse :: c.before, outer⟩

/-- Adds two stars that fill a component. They take the place of the slash in
front of them; two such pairs in a row count once. -/
def addComponents (d : Draft) (p : GlobPart) : Draft :=
  match d.parts with
  | .leading :: _ => d
  | .trailing :: _ => d
  | _ :: before => { d with parts := p :: before }
  | [] => { d with parts := [p] }

/-- Adds two stars, which have `previous` in front and `rest` behind, and tells
whether the slash behind them belongs to them. -/
def addStars (d : Draft) (previous : Option Char) (rest : Text) : Draft × Bool :=
  let plain := ((d.add .star).add .star, false)
  let slashFollows := rest.head? = some '/'
  let inChoice := !d.choices.isEmpty
  let begins := inChoice && (previous = some ',' || previous = some '\x7b')
  let ends := inChoice && (rest.head? = some ',' || rest.head? = some '\x7d')
  if d.parts.isEmpty then
    if slashFollows || rest.isEmpty then (d.add .leading, slashFollows) else plain
  else if previous = some '/' || begins then
    if rest.isEmpty || ends then (d.addComponents .trailing, false)
    else if slashFollows then (d.addComponents .between, true)
    else plain
  else plain

/-- The parts of a pattern that has ended. -/
def finish (d : Draft) : Except GlobFault (List GlobPart) :=
  if d.choices.isEmpty then .ok d.parts.reverse else .error .unclosedChoice

end Draft

/-- The ranges between brackets, where `done` has those so far, the last one
first. A hyphen makes a range of its neighbours; in front and at the end it
stands for itself. -/
def ranges (done : List (Char × Char)) (inRange : Bool) :
    Text → Except GlobFault (List (Char × Char))
  | [] => .ok (if inRange then (('-', '-') :: done).reverse else done.reverse)
  | c :: rest =>
    match done, inRange with
    | (a, _) :: before, true =>
      if c < a then .error (.invalidRange a c) else ranges ((a, c) :: before) false rest
    | [], _ => ranges [(c, c)] false rest
    | _, false => if c = '-' then ranges done true rest else ranges ((c, c) :: done) false rest

/-- The class whose bracket is open, and the rest behind it. A closing bracket
that comes first belongs to the class. -/
def class? (t : Text) : Except GlobFault (GlobPart × Text) := do
  let negated := t.head? = some '!' || t.head? = some '^'
  let body := if negated then t.drop 1 else t
  let tail := body.drop 1
  let rs ← ranges [] false (body.take 1 ++ tail.takeWhile (· ≠ ']'))
  match tail.dropWhile (· ≠ ']') with
  | [] => .error .unclosedClass
  | _ :: rest => .ok (.oneOf negated rs, rest)

/-- Reads the rest of a pattern behind the character `previous`. -/
def readFrom (d : Draft) (previous : Option Char) (t : Text) : Except GlobFault (List GlobPart) :=
  match t with
  | [] => d.finish
  | '?' :: rest => readFrom (d.add .any) (some '?') rest
  | '*' :: '*' :: rest =>
    match d.addStars previous rest with
    | (d, true) => readFrom d (some '/') (rest.drop 1)
    | (d, false) => readFrom d (some '*') rest
  | '*' :: rest => readFrom (d.add .star) (some '*') rest
  | '[' :: rest =>
    match class? rest with
    | .error e => .error e
    | .ok (p, later) =>
      if later.length < rest.length then readFrom (d.add p) (some ']') later
      else .error .unclosedClass
  | '\x7b' :: rest => readFrom d.openChoice (some '\x7b') rest
  | '\x7d' :: rest =>
    match d.closeChoice with
    | .error e => .error e
    | .ok d => readFrom d (some '\x7d') rest
  | ',' :: rest => readFrom d.comma (some ',') rest
  | ['\\'] => .error .danglingEscape
  | '\\' :: c :: rest => readFrom (d.add (.char c)) (some c) rest
  | c :: rest => readFrom (d.add (.char c)) (some c) rest
termination_by t.length
decreasing_by all_goals simp_all; try omega

/-- Reads a pattern. Two stars alone match everything. -/
def parse (t : Text) : Except GlobFault Glob := do
  match ← readFrom {} none t with
  | [.leading] => return ⟨[.star]⟩
  | parts => return ⟨parts⟩

/-! ## Matching a path -/

/-- The bytes of a path or of a part of it. -/
abbrev Bytes := List UInt8

/-- The bytes of a character. -/
def bytesOf (c : Char) : Bytes :=
  (Text.bytes [c]).toList

/-- Whether a byte belongs to a range of characters. Of a character of several
bytes each byte counts for itself. -/
def inRange (b : UInt8) (first last : Char) : Bool :=
  let f := bytesOf first
  let l := bytesOf last
  if first = last then f.contains b
  else
    f.dropLast.contains b || (l.drop 1).contains b ||
      ((f.getLast?.map fun x => decide (x ≤ b)).getD false &&
        (l.head?.map fun x => decide (b ≤ x)).getD false)

/-- The slash. -/
def slash : UInt8 :=
  '/'.toNat.toUInt8

/-- What is left of a text once any number of bytes is taken. -/
def suffixes : Bytes → List Bytes
  | [] => [[]]
  | b :: rest => (b :: rest) :: suffixes rest

/-- What follows each slash. -/
def afterSlashes (s : Bytes) : List Bytes :=
  (suffixes s).filterMap fun
    | [] => none
    | b :: rest => if b = slash then some rest else none

mutual

/-- Whether a part stands for the empty text alone. -/
def isVoid : GlobPart → Bool
  | .choice alternatives => alternativesVoid alternatives
  | _ => false

/-- The same for parts in a row. -/
def partsVoid : List GlobPart → Bool
  | [] => true
  | p :: rest => isVoid p && partsVoid rest

/-- The same for alternatives. -/
def alternativesVoid : List (List GlobPart) → Bool
  | [] => true
  | a :: rest => partsVoid a && alternativesVoid rest

end

mutual

/-- What a part may leave of a text. -/
def rests (p : GlobPart) (s : Bytes) : List Bytes :=
  match p with
  | .char c => ((bytesOf c).isPrefixOf? s).toList
  | .any => if s.isEmpty then [] else [s.drop 1]
  | .star => suffixes s
  | .leading => s :: afterSlashes s
  | .trailing => if s.head? = some slash then suffixes (s.drop 1) else []
  | .between =>
    if s.head? = some slash then s.drop 1 :: afterSlashes (s.drop 1) else []
  | .oneOf negated rs =>
    match s with
    | [] => []
    | b :: rest => if (rs.any fun r => inRange b r.1 r.2) != negated then [rest] else []
  | .choice alternatives =>
    if alternativesVoid alternatives then [s] else restsOfAlternatives alternatives [s]

/-- What parts in a row may leave of one of the texts. -/
def restsOfParts (ps : List GlobPart) (texts : List Bytes) : List Bytes :=
  match ps with
  | [] => texts
  | p :: later => restsOfParts later (texts.flatMap fun s => rests p s).eraseDups

/-- What one of the alternatives may leave of one of the texts. An alternative
that stands for the empty text alone does not count. -/
def restsOfAlternatives (alternatives : List (List GlobPart)) (texts : List Bytes) :
    List Bytes :=
  match alternatives with
  | [] => []
  | a :: later =>
    (if partsVoid a then [] else restsOfParts a texts) ++ restsOfAlternatives later texts

end

/-- Whether the pattern matches a text. -/
def accepts (g : Glob) (t : Text) : Bool :=
  (restsOfParts g.parts [t.bytes.toList]).any List.isEmpty

end Glob

end Folio
