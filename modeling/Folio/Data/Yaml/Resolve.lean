import Folio.Data.Value
import Folio.Data.Width
import Folio.Data.Yaml.Anchor

/-!
# The values of YAML documents

`Yaml.read?` reads a document as a value. The text of a plain scalar tells
whether it is null, a boolean, a number or a text. A tag of the core schema
demands a type; a tag of the document's own is refused. An alias stands for the
node of its anchor; a document that follows its aliases too often is refused.
-/

namespace Folio.Yaml

/-! ## Plain scalars -/

/-- Whether a plain text means null. -/
def isNull (t : Text) : Bool :=
  ["null", "Null", "NULL", "~"].contains (String.ofList t)

/-- The boolean that a plain text means. -/
def bool? (t : Text) : Option Bool :=
  match String.ofList t with
  | "true" => some true
  | "True" => some true
  | "TRUE" => some true
  | "false" => some false
  | "False" => some false
  | "FALSE" => some false
  | _ => none

/-- The sign in front of a number: whether it is a minus sign, and the rest. -/
def splitSign : Text → Bool × Text
  | '-' :: rest => (true, rest)
  | '+' :: rest => (false, rest)
  | t => (false, t)

/-- The number that digits of a base make. -/
def radixValue? (base : Nat) (digits : Text) : Option Nat :=
  let values := digits.map Quoted.hexDigit?
  if digits.isEmpty then none
  else values.foldlM (fun n d => (d.filter (· < base)).map (base * n + ·)) 0

/-- Whether digits have a zero in front, so that they make no number. -/
def hasLeadingZero (digits : Text) : Bool :=
  digits.length > 1 && digits.head? = some '0' && digits.all Char.isDigit

/-- The integer that a plain text means. -/
def integer? (t : Text) : Option Int :=
  let (negative, rest) := splitSign t
  let magnitude :=
    match rest with
    | '0' :: 'x' :: digits => radixValue? 16 digits
    | '0' :: 'o' :: digits => radixValue? 8 digits
    | '0' :: 'b' :: digits => radixValue? 2 digits
    | digits => if hasLeadingZero digits then none else radixValue? 10 digits
  magnitude.map fun n => if negative then -(n : Int) else n

/-- The finite number that a decimal numeral means. -/
def decimal? (t : Text) : Option Double := do
  let (negative, rest) := splitSign t
  let isE (c : Char) : Bool := c = 'e' || c = 'E'
  let mantissa := rest.takeWhile (!isE ·)
  let whole := mantissa.takeWhile (· ≠ '.')
  let places := (mantissa.dropWhile (· ≠ '.')).drop 1
  let exponent : Int ← match rest.dropWhile (!isE ·) with
    | [] => some 0
    | _ :: after =>
      let (below, digits) := splitSign after
      (radixValue? 10 digits).map fun n => if below then -(n : Int) else n
  let digits ← radixValue? 10 (whole ++ places)
  let d := Double.ofDecimal negative digits (exponent - places.length)
  if d.isFinite then some d else none

/-- The number that a plain text means. -/
def float? (t : Text) : Option Double :=
  match String.ofList t with
  | ".inf" => some (.infinite false)
  | ".Inf" => some (.infinite false)
  | ".INF" => some (.infinite false)
  | "+.inf" => some (.infinite false)
  | "+.Inf" => some (.infinite false)
  | "+.INF" => some (.infinite false)
  | "-.inf" => some (.infinite true)
  | "-.Inf" => some (.infinite true)
  | "-.INF" => some (.infinite true)
  | ".nan" => some .nan
  | ".NaN" => some .nan
  | ".NAN" => some .nan
  | _ => decimal? t

/-- A number as a value; one that is not finite is null. -/
def ofFloat (d : Double) : Value :=
  if d.isFinite then .number (.double d) else .null

/-- What becomes of an integer: it is kept, refused, or read as a number of
another kind because it has more than 128 bits. -/
def ofInteger? (i : Int) : Option (Option Value) :=
  if Width.signedMin 64 ≤ i ∧ i ≤ Width.unsignedMax 64 then some (some (.number (.int i)))
  else if Width.signedMin 128 ≤ i ∧ i ≤ Width.unsignedMax 128 then none
  else some none

/-- The integer that a plain text means, unless it means none. -/
def integerValue? (t : Text) : Option (Option Value) :=
  match integer? t with
  | none => some none
  | some i => ofInteger? i

/-- The value of a plain text. -/
def plainValue? (t : Text) : Option Value := do
  if t.isEmpty || isNull t then return .null
  match bool? t with
  | some b => return .bool b
  | none =>
    match ← integerValue? t with
    | some v => return v
    | none =>
      match if hasLeadingZero (splitSign t).2 then none else float? t with
      | some d => return ofFloat d
      | none => return .text t

/-! ## Tags -/

/-- The tag of a type of the core schema. -/
def coreTag (name : String) : Tag :=
  ("tag:yaml.org,2002:" ++ name).toList.map octetOf

/-- Whether a tag is the document's own. -/
def isOwnTag (tag : Tag) : Bool :=
  match tag with
  | [] => false
  | o :: rest =>
    o = octetOf '!' && (rest.isEmpty || (Text.ofBytes? ⟨rest.toArray⟩).isSome)

/-- The value of a scalar. -/
def scalarValue? (tag : Option Tag) (isPlain : Bool) (t : Text) : Option Value :=
  let untagged := if isPlain then plainValue? t else some (.text t)
  match tag with
  | none => untagged
  | some tag =>
    if isOwnTag tag then none
    else if tag = coreTag "bool" then (bool? t).map .bool
    else if tag = coreTag "int" then (integerValue? t).bind id
    else if tag = coreTag "float" then (float? t).map ofFloat
    else if tag = coreTag "null" then if isNull t then some .null else none
    else if tag.head? = some (octetOf '!') then untagged
    else some (.text t)

/-! ## Nodes -/

/-- Counts down how many aliases may still be followed. -/
abbrev Budget (α : Type) := StateT Nat Option α

/-- Follows an alias to its node. -/
def Linked.follow (d : Linked) (node : Node Nat) : Budget (Node Nat) := do
  match node with
  | .alias number =>
    match ← get with
    | 0 => failure
    | n + 1 =>
      set n
      match d.owner? number with
      | some owner => return owner
      | none => failure
  | node => return node

/-- The text of a key, which is a scalar of any type. -/
def Linked.keyText (d : Linked) (node : Node Nat) : Budget Text := do
  match ← d.follow node with
  | .scalar _ _ text => return text
  | _ => failure

/-- Refuses a collection with a tag of the document's own. -/
def Properties.checkTag (p : Properties) : Budget Unit :=
  if (p.tag.map isOwnTag).getD false then failure else pure ()

/-- The value of a node whose parts are valued by `inner`. Without `inner`,
collections are refused. -/
def Linked.valueOf (d : Linked) (inner : Option (Node Nat → Budget Value)) (node : Node Nat) :
    Budget Value := do
  match ← d.follow node, inner with
  | .scalar p isPlain text, _ =>
    match scalarValue? p.tag isPlain text with
    | some v => return v
    | none => failure
  | .sequence p items, some value =>
    p.checkTag
    return .list (← items.mapM value)
  | .mapping p entries, some value =>
    p.checkTag
    let fields ← entries.mapM fun (k, v) => do
      let key ← d.keyText k
      return (key, ← value v)
    return .ofFields fields
  | _, _ => failure

/-- The value of a node in which collections nest up to the given depth. -/
def Linked.value (d : Linked) : Nat → Node Nat → Budget Value
  | 0 => d.valueOf none
  | depth + 1 => d.valueOf (some (d.value depth))

/-- How often a document may follow aliases: a hundred times for each node, where
a collection counts twice. -/
def Linked.budget (d : Linked) : Nat :=
  let events : Node Nat → Nat
    | .alias _ => 1
    | .scalar _ _ _ => 1
    | .sequence _ _ => 2
    | .mapping _ _ => 2
  100 * d.root.preorder.foldl (fun n node => n + events node) 0

/-- Reads a document as a value. -/
def read? (t : Text) : Option Value := do
  let root ← Node.ofTokens? (← Token.ofGlyphs? (← Glyph.ofText? t))
  let linked ← root.link?
  let (value, _) ← linked.value Node.depthLimit linked.root linked.budget
  return value

end Folio.Yaml
