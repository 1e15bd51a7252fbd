import Folio.Data.Yaml.Token

/-!
# Nodes of YAML

`Node.ofTokens?` reads the one document that a list of tokens holds as a tree of
nodes. Collections nest at most 128 deep.
-/

namespace Folio.Yaml

/-- The name that other nodes may refer to a node by, and the tag of the node. -/
structure Properties where
  anchor : Option Text := none
  tag : Option Tag := none

/-- A node of a document, in which an alias refers to its node by a `ρ`. -/
inductive Node (ρ : Type) where
  | alias (target : ρ)
  | scalar (properties : Properties) (isPlain : Bool) (text : Text)
  | sequence (properties : Properties) (items : List (Node ρ))
  | mapping (properties : Properties) (entries : List (Node ρ × Node ρ))
deriving Inhabited

/-- Reads a node off the front of a list of tokens. Its aliases give the names of
anchors. -/
abbrev NodeReader := ReaderOf Token (Node Text)

/-- What the handles of tags stand for. -/
abbrev Handles := List (Text × Tag)

namespace Node

/-- A node that is not written. -/
def empty {ρ : Type} : Node ρ :=
  .scalar {} true []

/-- Takes the token `t`. -/
def token (t : Token) : ReaderOf Token Unit := do
  let _ ← Reader.satisfy fun t' : Token => t' = t

/-- Whether one of the tokens comes next. -/
def sees (ts : List Token) : ReaderOf Token Bool := do
  return ((← Reader.peek?).map fun t => decide (t ∈ ts)).getD false

/-- Reads a node unless one of the tokens comes next, which shows that the node
is not written. -/
def unlessAt (ends : List Token) (node : NodeReader) : NodeReader := do
  if ← sees ends then return empty else node

/-- Reads a node behind the token `t`; without the token it is not written. -/
def behind (t : Token) (ends : List Token) (node : NodeReader) : NodeReader := do
  if ← sees [t] then
    token t
    unlessAt ends node
  else return empty

/-! ## Properties -/

/-- Reads an anchor, when there is one. -/
def anchor? : ReaderOf Token (Option Text)
  | .anchor name :: rest => some (some name, rest)
  | t => some (none, t)

/-- Reads a tag, when there is one. Its handle has to be known. -/
def tag? (handles : Handles) : ReaderOf Token (Option Tag)
  | .tag handle suffix :: rest =>
    if handle.isEmpty then some (some suffix, rest)
    else
      match handles.lookup handle with
      | some start => some (some (start ++ suffix), rest)
      | none => none
  | t => some (none, t)

/-- Reads an anchor and a tag in any order. -/
def properties (handles : Handles) : ReaderOf Token Properties := do
  let anchor ← anchor?
  let tag ← tag? handles
  let anchor ← if anchor.isNone && tag.isSome then anchor? else pure anchor
  return ⟨anchor, tag⟩

/-! ## Collections -/

/-- Reads the entries of a block sequence. -/
def blockItems (ends : List Token) (node : NodeReader) : ReaderOf Token (List (Node Text)) :=
  Reader.untilNone do
    if ← sees [.entry] then
      token .entry
      return some (← unlessAt (.entry :: .blockEnd :: ends) node)
    else return none

/-- Reads the entries of a block mapping. -/
def blockEntries (node : NodeReader) : ReaderOf Token (List (Node Text × Node Text)) :=
  Reader.untilNone do
    if ← sees [.key] then
      token .key
      let key ← unlessAt [.key, .value, .blockEnd] node
      return some (key, ← behind .value [.key, .value, .blockEnd] node)
    else return none

/-- Reads what stands between brackets or braces up to the token `close`, with
commas between the items and maybe one behind the last. -/
def flowItems {α : Type} (close : Token) (item : ReaderOf Token α) : ReaderOf Token (List α) := do
  let items ←
    if ← sees [close] then pure []
    else
      let first ← item
      let rest ← Reader.untilNone do
        if ← sees [close] then return none
        token .comma
        if ← sees [close] then return none
        return some (← item)
      pure (first :: rest)
  token close
  return items

/-- Reads an item between brackets, where a key and its value make a mapping of
one entry. A key that is not written takes the place of the token behind its
mark. -/
def flowItem (node : NodeReader) : NodeReader := do
  if ← sees [.key] then
    token .key
    let key ←
      if ← sees [.value, .comma, .flowSequenceEnd] then
        let _ ← Reader.next
        pure empty
      else node
    let value ← behind .value [.comma, .flowSequenceEnd] node
    return .mapping {} [(key, value)]
  else node

/-- Reads an entry between braces. -/
def flowEntry (node : NodeReader) : ReaderOf Token (Node Text × Node Text) := do
  if ← sees [.key] then
    token .key
    let key ← unlessAt [.value, .comma, .flowMappingEnd] node
    return (key, ← behind .value [.comma, .flowMappingEnd] node)
  else return (← node, empty)

/-! ## Documents -/

/-- Where a node stands. Only a node outside brackets may be a block, and only a
key or a value of a block mapping may be a sequence of the same column. -/
inductive Place where
  | flow
  | block
  | blockEntry
deriving DecidableEq

/-- Reads a node whose parts are read by `inner`. Without `inner`, collections
are refused. -/
def nodeOf? (handles : Handles) (inner : Option (Place → NodeReader)) (place : Place) :
    NodeReader := do
  match ← Reader.peek? with
  | some (.alias name) =>
    let _ ← Reader.next
    return .alias name
  | _ =>
    let p ← properties handles
    match ← Reader.peek?, inner with
    | some (.scalar isPlain text), _ =>
      let _ ← Reader.next
      if p.tag = some [octetOf '!'] then return .scalar { p with tag := none } isPlain text
      else return .scalar p isPlain text
    | some .flowSequenceStart, some node =>
      let _ ← Reader.next
      return .sequence p (← flowItems .flowSequenceEnd (flowItem (node .flow)))
    | some .flowMappingStart, some node =>
      let _ ← Reader.next
      return .mapping p (← flowItems .flowMappingEnd (flowEntry (node .flow)))
    | some t, some node =>
      if t = .entry && place = .blockEntry then
        return .sequence p (← blockItems [.key, .value] (node .block))
      else if t = .sequenceStart && place ≠ .flow then
        let _ ← Reader.next
        let items ← blockItems [] (node .block)
        token .blockEnd
        return .sequence p items
      else if t = .mappingStart && place ≠ .flow then
        let _ ← Reader.next
        let entries ← blockEntries (node .blockEntry)
        token .blockEnd
        return .mapping p entries
      else if p.anchor.isSome || p.tag.isSome then return .scalar p true []
      else Reader.refuse
    | _, _ => if p.anchor.isSome || p.tag.isSome then return .scalar p true [] else Reader.refuse

/-- Reads a node in which collections nest up to the given depth. -/
def node (handles : Handles) : Nat → Place → NodeReader
  | 0 => nodeOf? handles none
  | depth + 1 => nodeOf? handles (some (node handles depth))

/-- A directive in front of a document. -/
inductive Directive where
  | version (major minor : Nat)
  | tagHandle (handle : Text) (start : Tag)

/-- Reads a directive, when there is one. -/
def directive? : ReaderOf Token (Option Directive)
  | .version major minor :: rest => some (some (.version major minor), rest)
  | .tagHandle handle start :: rest => some (some (.tagHandle handle start), rest)
  | t => some (none, t)

/-- What the handles stand for. There is at most one version, which is 1.1 or
1.2, and each handle is given at most once. -/
def handlesOf? (directives : List Directive) : Option Handles :=
  let versions := directives.filterMap fun
    | .version major minor => some (major, minor)
    | .tagHandle _ _ => none
  let handles := directives.filterMap fun
    | .version _ _ => none
    | .tagHandle handle start => some (handle, start)
  if versions.length ≤ 1 ∧ (∀ v ∈ versions, v = (1, 1) ∨ v = (1, 2)) ∧
      (handles.map Prod.fst).Nodup then
    some (handles ++
      [(['!'], [octetOf '!']), (['!', '!'], "tag:yaml.org,2002:".toList.map octetOf)])
  else none

/-- Whether a token shows that a document is empty. -/
def endsDocument : Token → Bool
  | .version _ _ => true
  | .tagHandle _ _ => true
  | .documentStart => true
  | .documentEnd => true
  | _ => false

/-- How deep collections may nest. -/
def depthLimit : Nat :=
  128

/-- Reads the one document of a list of tokens. A document without a start marker
has no directives and may not be empty, unless there are no tokens at all. -/
def document : NodeReader := do
  let directives ← Reader.untilNone directive?
  match ← Reader.peek? with
  | none => if directives.isEmpty then return empty else Reader.refuse
  | some _ =>
    let handles ← handlesOf? directives
    let isMarked ← sees [.documentStart]
    if !isMarked && !directives.isEmpty then Reader.refuse
    if isMarked then token .documentStart
    let isEmpty := isMarked && ((← Reader.peek?).map endsDocument).getD true
    let root ← if isEmpty then pure empty else node handles depthLimit .block
    let _ ← Reader.many (token .documentEnd)
    return root

/-- The root of the one document of a list of tokens. -/
def ofTokens? (ts : List Token) : Option (Node Text) :=
  Reader.readAll document ts

end Node

end Folio.Yaml
