import Folio.Data.Value

/-!
# TOML tables

A TOML document is a table. While it is read its tables are `Draft`s, which
remember what brought them into being: a header of their own, a header of a table
inside them, or a dotted key. That decides what may still be added to them, and
`addPair` and `addSection` refuse anything else. `Draft.settle` gives the table
that a finished document holds.
-/

namespace Folio.Toml

/-- A finished value. The fields of a table are ordered by their keys. -/
inductive Item where
  | text (t : Text)
  | integer (i : Int)
  | float (d : Double)
  | bool (b : Bool)
  | datetime (t : Text)
  | array (items : List Item)
  | table (fields : List (Text × Item))

mutual

/-- A date becomes the text that spells it, and so does a number that is not
finite. -/
def Item.toValue : Item → Value
  | .text t => .text t
  | .integer i => .number (.int i)
  | .float d => .ofDouble d
  | .bool b => .bool b
  | .datetime t => .text t
  | .array items => .list (Item.toValues items)
  | .table fields => .object (Item.toFields fields)

/-- The values of some items. -/
def Item.toValues : List Item → List Value
  | [] => []
  | i :: rest => Item.toValue i :: Item.toValues rest

/-- The values of some fields. -/
def Item.toFields : List (Text × Item) → List (Text × Value)
  | [] => []
  | (k, i) :: rest => (k, Item.toValue i) :: Item.toFields rest

end

mutual

/-- Whether every integer inside an item lies from `low` up to `high`. -/
def Item.within (low high : Int) : Item → Bool
  | .integer i => low ≤ i && i ≤ high
  | .array items => Item.allWithin low high items
  | .table fields => Item.fieldsWithin low high fields
  | _ => true

/-- Whether every integer inside some items lies from `low` up to `high`. -/
def Item.allWithin (low high : Int) : List Item → Bool
  | [] => true
  | i :: rest => Item.within low high i && Item.allWithin low high rest

/-- Whether every integer inside some fields lies from `low` up to `high`. -/
def Item.fieldsWithin (low high : Int) : List (Text × Item) → Bool
  | [] => true
  | (_, i) :: rest => Item.within low high i && Item.fieldsWithin low high rest

end

/-- What brought a table into being. -/
inductive Origin where
  /-- A header that names the table. -/
  | header
  /-- A header that names a table inside it. -/
  | implied
  /-- A dotted key. -/
  | dotted
deriving DecidableEq

/-- A value of a document that is being read. -/
inductive Draft where
  | item (i : Item)
  | table (origin : Origin) (fields : List (Text × Draft))
  | tables (elements : List (List (Text × Draft)))

/-- The fields of a table that is being read. -/
abbrev Fields := List (Text × Draft)

/-- Changes the table that a path of keys leads to. Tables that the path lacks
are made. A path of dotted keys does not enter a table that has a header, and no
path enters a plain value; into an array of tables it enters the last one. -/
def changeAt (dotted : Bool) (change : Origin → Fields → Option Fields) :
    List Text → Origin → Fields → Option Fields
  | [], origin, fields => change origin fields
  | key :: path, _, fields =>
    match fields.lookup key with
    | none =>
      let origin := if dotted then Origin.dotted else .implied
      (changeAt dotted change path origin []).map fun inner =>
        insertEntry key (.table origin inner) fields
    | some (.table origin inner) =>
      if dotted && origin = .header then none
      else
        (changeAt dotted change path origin inner).map fun inner =>
          insertEntry key (.table origin inner) fields
    | some (.tables elements) =>
      match elements.getLast? with
      | none => none
      | some last =>
        (changeAt dotted change path .header last).map fun last =>
          insertEntry key (.tables (elements.dropLast ++ [last])) fields
    | some (.item _) => none

/-- A key, dotted or not, and its value. -/
structure Pair where
  path : List Text
  key : Text
  value : Item

/-- Adds a pair to the fields of a table. The key must be new, and a dotted key
must end in a table that dotted keys made. -/
def addPair (fields : Fields) (pair : Pair) : Option Fields :=
  changeAt true (fun origin inner =>
    if (inner.lookup pair.key).isSome then none
    else if pair.path ≠ [] ∧ origin ≠ .dotted then none
    else some (insertEntry pair.key (.item pair.value) inner)) pair.path .header fields

/-- A header and the pairs below it. -/
structure Section where
  path : List Text
  key : Text
  isElement : Bool
  pairs : List Pair

/-- Adds the table of a section to a document. A table may get a header once; an
element is added to an array of tables. -/
def addSection (document : Fields) (s : Section) : Option Fields :=
  changeAt false (fun _ fields =>
    if s.isElement then
      match fields.lookup s.key with
      | none =>
        (s.pairs.foldlM addPair []).map fun inner =>
          insertEntry s.key (.tables [inner]) fields
      | some (.tables elements) =>
        (s.pairs.foldlM addPair []).map fun inner =>
          insertEntry s.key (.tables (elements ++ [inner])) fields
      | some _ => none
    else
      match fields.lookup s.key with
      | none =>
        (s.pairs.foldlM addPair []).map fun inner =>
          insertEntry s.key (.table .header inner) fields
      | some (.table .implied start) =>
        (s.pairs.foldlM addPair start).map fun inner =>
          insertEntry s.key (.table .header inner) fields
      | some _ => none) s.path .header document

mutual

/-- The value of a draft. -/
def Draft.settle : Draft → Item
  | .item i => i
  | .table _ fields => .table (Draft.settleFields fields)
  | .tables elements => .array (Draft.settleElements elements)

/-- The values of the fields of a draft. -/
def Draft.settleFields : List (Text × Draft) → List (Text × Item)
  | [] => []
  | (k, d) :: rest => (k, Draft.settle d) :: Draft.settleFields rest

/-- The values of the elements of an array of tables. -/
def Draft.settleElements : List (List (Text × Draft)) → List Item
  | [] => []
  | fields :: rest => .table (Draft.settleFields fields) :: Draft.settleElements rest

end

/-- The table of a document: the pairs in front of the first header, and the
sections. -/
def assemble? (pairs : List Pair) (sections : List Section) : Option (List (Text × Item)) := do
  let start ← pairs.foldlM addPair []
  let document ← sections.foldlM addSection start
  return Draft.settleFields document

/-- The table that is written between braces. -/
def inline? (pairs : List Pair) : Option Item :=
  (pairs.foldlM addPair []).map fun fields => .table (Draft.settleFields fields)

end Folio.Toml
