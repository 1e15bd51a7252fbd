import Folio.Text.Order

/-!
# Paths

A path keeps the spelling it was written with. `Path.components` reads it as a
list of components, `Path.normal` evaluates the components from left to right
without looking at any disk, and `Path.join`, `Path.parent?`, `Path.relativeTo?`
work on the spelling, so that a path is displayed as it was composed.
`Path.normalize` spells a path anew from its components.
-/

namespace Folio

/-- A path as it is spelled. -/
structure Path where
  text : Text
deriving DecidableEq, Inhabited

/-- One step of a path. `here` occurs only in front of a relative path. -/
inductive Component where
  | root
  | here
  | up
  | name (n : Text)
deriving DecidableEq

/-- The lexical meaning of a path: absolute or not, how many steps up it
starts with, and the names that follow. -/
structure NormalPath where
  absolute : Bool
  ups : Nat
  names : List Text
deriving DecidableEq, Inhabited

namespace Path

/-- The path with the given spelling. -/
def ofString (s : String) : Path :=
  ⟨s.toList⟩

/-- The spelling, as it is shown in messages. -/
def display (p : Path) : String :=
  String.ofList p.text

/-- Whether a path starts at the root. -/
def isAbsolute (p : Path) : Bool :=
  p.text.head? = some '/'

/-- The part of the spelling that stands in front of all names: a slash, a
single dot that begins a relative path, or nothing. -/
inductive Lead where
  | root
  | here
  | none
deriving DecidableEq

/-- The lead of a path and the texts between its other slashes. -/
def split (p : Path) : Lead × List Text :=
  match p.text with
  | '/' :: rest => (.root, rest.splitOn '/')
  | text =>
    match text.splitOn '/' with
    | ['.'] :: rest => (.here, rest)
    | parts => (.none, parts)

/-- Whether a text between two slashes names no component. -/
def isVoid (part : Text) : Bool :=
  part = [] || part = ['.']

/-- The path with a given lead and given texts between its slashes. -/
def unsplit (lead : Lead) (parts : List Text) : Path :=
  let body := Text.join ['/'] parts
  match lead with
  | .root => ⟨'/' :: body⟩
  | .here => ⟨if parts = [] then ['.'] else '.' :: '/' :: body⟩
  | .none => ⟨body⟩

/-- The component that a text between two slashes names. -/
def component? (part : Text) : Option Component :=
  if isVoid part then none
  else if part = ['.', '.'] then some .up
  else some (.name part)

/-- The components of the lead. -/
def Lead.components : Lead → List Component
  | .root => [.root]
  | .here => [.here]
  | .none => []

/-- The components of a path, from left to right. -/
def components (p : Path) : List Component :=
  let (lead, parts) := p.split
  lead.components ++ parts.filterMap component?

/-- The path that `q` leads to from `p`. An absolute `q` replaces `p`. -/
def join (p q : Path) : Path :=
  if q.isAbsolute then q
  else if p.text = [] || p.text.getLast? = some '/' then ⟨p.text ++ q.text⟩
  else ⟨p.text ++ '/' :: q.text⟩

/-- The parts in front of the last component, when there is one. -/
def dropLastPart? (parts : List Text) : Option (List Text) :=
  match parts.reverse.dropWhile isVoid with
  | [] => none
  | _ :: rest => some (rest.dropWhile isVoid).reverse

/-- The path without its last component. -/
def parent? (p : Path) : Option Path :=
  let (lead, parts) := p.split
  match dropLastPart? parts with
  | some rest => some (unsplit lead rest)
  | none =>
    match lead with
    | .here => some ⟨[]⟩
    | _ => none

/-- The last component, when it is a name. -/
def fileName? (p : Path) : Option Text :=
  match p.components.getLast? with
  | some (.name n) => some n
  | _ => none

/-- Replaces the file name, or appends one where there is none. -/
def withFileName (p : Path) (name : Text) : Path :=
  match p.fileName?, p.parent? with
  | some _, some parent => parent.join ⟨name⟩
  | _, _ => p.join ⟨name⟩

/-- What follows the last dot of the file name. A dot in front of the name
does not count. -/
def extension? (p : Path) : Option Text := do
  let name ← p.fileName?
  let tail := name.reverse.takeWhile (· ≠ '.')
  let stem := (name.reverse.dropWhile (· ≠ '.')).drop 1
  if stem = [] then none else some tail.reverse

/-- Drops the first `n` components of the parts. -/
def dropParts : Nat → List Text → List Text
  | 0, parts => parts
  | _ + 1, [] => []
  | n + 1, part :: rest => if isVoid part then dropParts (n + 1) rest else dropParts n rest

/-- Whether the components of `base` begin the components of `p`. -/
def startsWith (p base : Path) : Bool :=
  base.components.isPrefixOf p.components

/-- The rest of `p` below `base`, compared component by component and spelled
as in `p`. -/
def relativeTo? (p base : Path) : Option Path :=
  if p.startsWith base then
    let (lead, parts) := p.split
    let trimmed (parts : List Text) := (parts.reverse.dropWhile isVoid).reverse
    match base.components.length, lead with
    | 0, _ => some (unsplit lead (trimmed parts))
    | n + 1, .none => some (unsplit .none (trimmed ((dropParts (n + 1) parts).dropWhile isVoid)))
    | n + 1, _ => some (unsplit .none (trimmed ((dropParts n parts).dropWhile isVoid)))
  else none

/-- The spelling after one component more. A name is appended, a step up removes
the last name, is dropped behind the root, and is appended where no name is left. -/
def follow (p : Path) : Component → Path
  | .root => p.join ⟨['/']⟩
  | .here => p
  | .name n => p.join ⟨n⟩
  | .up =>
    match p.components.getLast? with
    | some (.name _) => p.parent?.getD p
    | some .root => p
    | _ => p.join ⟨['.', '.']⟩

/-- A spelling without detours. The components are followed from left to right,
beginning with the empty path. -/
def normalize (p : Path) : Path :=
  p.components.foldl follow ⟨[]⟩

/-- The rank of a component's kind in the order of paths. -/
def Component.rank : Component → Nat
  | .root => 0
  | .here => 1
  | .up => 2
  | .name _ => 3

/-- The order of components: the root, a leading dot, a step up, then names by
their characters. -/
def Component.le (a b : Component) : Bool :=
  match a, b with
  | .name m, .name n => m.isUpTo n
  | _, _ => Component.rank a ≤ Component.rank b

/-- Compares lists of components position by position. -/
def leComponents : List Component → List Component → Bool
  | [], _ => true
  | _ :: _, [] => false
  | a :: as, b :: bs => if a = b then leComponents as bs else Component.le a b

/-- The order of paths, component by component. -/
def le (p q : Path) : Bool :=
  leComponents p.components q.components

end Path

/-- Whether a text is the name of one component and nothing else. -/
def Text.IsName (n : Text) : Prop :=
  ¬Path.isVoid n ∧ n ≠ ['.', '.'] ∧ '/' ∉ n

instance (n : Text) : Decidable n.IsName :=
  inferInstanceAs (Decidable (_ ∧ _ ∧ _))

namespace NormalPath

/-- One component more: a name is appended, a step up removes the last name,
is dropped at the root, and is counted where a relative path has no name left. -/
def step (n : NormalPath) : Component → NormalPath
  | .root => { n with absolute := true }
  | .here => n
  | .name x => { n with names := n.names ++ [x] }
  | .up =>
    if n.names = [] then (if n.absolute then n else { n with ups := n.ups + 1 })
    else { n with names := n.names.dropLast }

/-- The normal form of the empty path. -/
def empty : NormalPath :=
  ⟨false, 0, []⟩

/-- The components of a normal form. -/
def components (n : NormalPath) : List Component :=
  (if n.absolute then [.root] else []) ++ List.replicate n.ups .up ++ n.names.map .name

/-- The shortest spelling of a normal form. -/
def toPath (n : NormalPath) : Path :=
  Path.unsplit (if n.absolute then .root else .none) (List.replicate n.ups ['.', '.'] ++ n.names)

end NormalPath

/-- Evaluates the components of a path from left to right. -/
def Path.normal (p : Path) : NormalPath :=
  p.components.foldl NormalPath.step .empty

end Folio
