import Folio.Data.Value

/-!
# KDL documents

A document is a list of nodes. A node has a name, arguments and properties, and
maybe a block of child nodes. A name keeps the spelling it has in the source
next to its value. `Document.toValue` turns a document into an object whose keys
are the spellings of the names.
-/

namespace Folio.Kdl

/-- A name: its value, and how it is written. -/
structure Name where
  value : Text
  spelling : Text
deriving DecidableEq

/-- The value of an argument or a property. -/
inductive Scalar where
  | text (t : Text)
  | integer (i : Int)
  | float (d : Double)
  | bool (b : Bool)
  | null
deriving DecidableEq

/-- An argument, or a property when it has a name. -/
structure NodeEntry where
  name : Option Name
  value : Scalar
deriving DecidableEq

/-- A node. Without a block of children `children` is `none`. -/
inductive Node where
  | mk (name : Name) (entries : List NodeEntry) (children : Option (List Node))

/-- Numbers become texts, with all their places. -/
def Scalar.toValue : Scalar → Value
  | .text t => .text t
  | .integer i => .text (Text.ofInt i)
  | .float d => .text (Layout.positional.write d)
  | .bool b => .bool b
  | .null => .null

/-- The value of a node without children: nothing, one argument, an object of
properties, or a list as soon as there are more arguments than one or both
kinds of entries. -/
def valueOfEntries : List NodeEntry → Value
  | [] => .null
  | [⟨none, v⟩] => v.toValue
  | entries =>
    match entries.mapM fun e => e.name.map fun n => (n.spelling, e.value.toValue) with
    | some fields => .ofFields fields
    | none => .list (entries.map fun e => e.value.toValue)

mutual

/-- The value of a node. Children take the place of all entries. -/
def Node.toValue : Node → Value
  | .mk _ _ (some children) => .ofFields (Node.fields children)
  | .mk _ entries none => valueOfEntries entries

/-- The names of some nodes with their values. -/
def Node.fields : List Node → List (Text × Value)
  | [] => []
  | .mk name entries children :: rest =>
    (name.spelling, Node.toValue (.mk name entries children)) :: Node.fields rest

end

/-- The object of a document. -/
def toValue (nodes : List Node) : Value :=
  .ofFields (Node.fields nodes)

end Folio.Kdl
