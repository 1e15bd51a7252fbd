import Folio.Data.Yaml.Node

/-!
# Anchors and aliases of YAML

`Node.link?` replaces the names in the aliases of a document by numbers. Anchors
are numbered in the order of the document by the count of names known so far. A
name that is given again therefore gets the number that the next new name gets
too, and the later of the two nodes is the one that the number refers to.
-/

namespace Folio.Yaml

/-- A document whose aliases refer to their nodes by number. -/
structure Linked where
  root : Node Nat
  /-- The nodes of the numbers, as positions in the order of the document. -/
  owners : List (Nat × Nat)

namespace Node

variable {ρ : Type}

mutual

/-- A node and all nodes inside it, in the order of the document. -/
def preorder : Node ρ → List (Node ρ)
  | .alias r => [.alias r]
  | .scalar p isPlain text => [.scalar p isPlain text]
  | .sequence p items => .sequence p items :: preorderItems items
  | .mapping p entries => .mapping p entries :: preorderEntries entries

/-- The same for the items of a sequence. -/
def preorderItems : List (Node ρ) → List (Node ρ)
  | [] => []
  | n :: rest => preorder n ++ preorderItems rest

/-- The same for the entries of a mapping. -/
def preorderEntries : List (Node ρ × Node ρ) → List (Node ρ)
  | [] => []
  | (k, v) :: rest => preorder k ++ preorder v ++ preorderEntries rest

end

/-- What is known of the anchors at a place in a document. -/
structure Names where
  /-- The number of nodes before the place. -/
  position : Nat := 0
  /-- The numbers of the names. -/
  numbers : List (Text × Nat) := []
  /-- The positions of the nodes with a number, the latest first. -/
  owners : List (Nat × Nat) := []

/-- Passes a node, which may have an anchor. -/
def Names.pass (n : Names) (anchor : Option Text) : Names :=
  match anchor with
  | none => { n with position := n.position + 1 }
  | some name =>
    let number := n.numbers.length
    { position := n.position + 1
      numbers := (name, number) :: n.numbers.filter (·.1 ≠ name)
      owners := (number, n.position) :: n.owners }

mutual

/-- Replaces names by numbers in a node; refuses a name that is not known yet. -/
def number (n : Names) : Node Text → Option (Node Nat × Names)
  | .alias name => (n.numbers.lookup name).map fun k => (.alias k, n.pass none)
  | .scalar p isPlain text => some (.scalar p isPlain text, n.pass p.anchor)
  | .sequence p items => do
    let (items, n) ← numberItems (n.pass p.anchor) items
    return (.sequence p items, n)
  | .mapping p entries => do
    let (entries, n) ← numberEntries (n.pass p.anchor) entries
    return (.mapping p entries, n)

/-- The same for the items of a sequence. -/
def numberItems (n : Names) : List (Node Text) → Option (List (Node Nat) × Names)
  | [] => some ([], n)
  | item :: rest => do
    let (item, n) ← number n item
    let (rest, n) ← numberItems n rest
    return (item :: rest, n)

/-- The same for the entries of a mapping. -/
def numberEntries (n : Names) :
    List (Node Text × Node Text) → Option (List (Node Nat × Node Nat) × Names)
  | [] => some ([], n)
  | (k, v) :: rest => do
    let (k, n) ← number n k
    let (v, n) ← number n v
    let (rest, n) ← numberEntries n rest
    return ((k, v) :: rest, n)

end

/-- Links the aliases of a document to their nodes. -/
def link? (root : Node Text) : Option Linked :=
  (number {} root).map fun (root, names) => ⟨root, names.owners⟩

end Node

/-- The node that a number refers to. -/
def Linked.owner? (d : Linked) (number : Nat) : Option (Node Nat) :=
  (d.owners.lookup number).bind fun position => d.root.preorder[position]?

end Folio.Yaml
