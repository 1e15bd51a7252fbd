import Folio.Disk.SystemError
import Folio.Path

/-!
# Disks

A `Disk` holds directories and files by their locations, the names from the root
down to them, and knows the directory that relative paths start from. What holds
a file or a directory is always a directory (`Disk.rooted`), and there are no
links, so a directory is reached through its location alone.

`Disk.find?` resolves a path step by step as an operating system does: whatever
is stepped from has to be a directory, even when the step leads back up.
-/

namespace Folio

/-- The names from the root down to a file or a directory. -/
abbrev Location := List Text

/-- Two lists of bytes are the same when all their bytes are. -/
instance (priority := 2000) decidableEqBytes : DecidableEq ByteArray := fun a b =>
  decidable_of_iff (a.data = b.data) ⟨ByteArray.ext, congrArg ByteArray.data⟩

/-- What is found at a location. -/
inductive DiskNode where
  | directory
  | file (contents : ByteArray)
deriving DecidableEq, Inhabited

/-- What a list of nodes has at a location. The root is always a directory. -/
def nodeIn (nodes : List (Location × DiskNode)) : Location → Option DiskNode
  | [] => some .directory
  | l => nodes.lookup l

/-- A tree of directories and files. -/
structure Disk where
  /-- Where relative paths start from. -/
  current : Location
  nodes : List (Location × DiskNode)
  distinct : (nodes.map Prod.fst).Nodup
  rooted : ∀ l n, (nodeIn nodes (l ++ [n])).isSome → nodeIn nodes l = some .directory

namespace Disk

/-- What is found at a location. -/
def node? (d : Disk) (l : Location) : Option DiskNode :=
  nodeIn d.nodes l

/-- The disk that has no files and no directories but the root. -/
def empty : Disk where
  current := []
  nodes := []
  distinct := .nil
  rooted := by
    intro l n h
    cases l <;> simp [nodeIn] at h

instance : Inhabited Disk := ⟨empty⟩

/-! ## Changing a disk -/

theorem lookup_filter_ne {α β : Type} [BEq α] [LawfulBEq α] [DecidableEq α]
    (entries : List (α × β)) (k x : α) :
    (entries.filter fun e => e.1 ≠ k).lookup x = if x = k then none else entries.lookup x := by
  induction entries with
  | nil => simp
  | cons e rest ih => by_cases he : e.1 = k <;> by_cases hx : x = e.1 <;> grind

theorem nodeIn_cons {nodes : List (Location × DiskNode)} {l : Location} {v : DiskNode}
    (hl : l ≠ []) (x : Location) :
    nodeIn ((l, v) :: nodes.filter fun e => e.1 ≠ l) x =
      if x = l then some v else nodeIn nodes x := by
  cases x with
  | nil => simp [nodeIn, Ne.symm hl]
  | cons a as =>
    have h := lookup_filter_ne nodes l (a :: as)
    by_cases hx : a :: as = l
    · simp [nodeIn, hx]
    · have hb : (a :: as == l) = false := by simpa using hx
      simpa [nodeIn, hx, List.lookup_cons, hb] using h

theorem nodup_put {nodes : List (Location × DiskNode)} {l : Location} {v : DiskNode}
    (h : (nodes.map Prod.fst).Nodup) :
    (((l, v) :: nodes.filter fun e => e.1 ≠ l).map Prod.fst).Nodup := by
  rw [List.map_cons, List.nodup_cons]
  refine ⟨by simp, h.sublist (List.filter_sublist.map _)⟩

/-- Puts a node at a location where there is no directory, inside one. -/
def put (d : Disk) (l : Location) (n : Text) (v : DiskNode)
    (hl : d.node? l = some .directory) (hn : d.node? (l ++ [n]) ≠ some .directory) : Disk where
  current := d.current
  nodes := (l ++ [n], v) :: d.nodes.filter fun e => e.1 ≠ l ++ [n]
  distinct := nodup_put d.distinct
  rooted := by
    intro l' n' h
    have hne : l ++ [n] ≠ [] := by simp
    rw [nodeIn_cons hne] at h ⊢
    have hd : nodeIn d.nodes l' = some .directory := by
      split at h
      · rename_i he
        rw [(List.append_inj_left' he rfl)]
        exact hl
      · exact d.rooted l' n' h
    split
    · rename_i he
      exact absurd (he ▸ hd) hn
    · exact hd

theorem nodeIn_filter (nodes : List (Location × DiskNode)) (p : Location → Bool) {l : Location}
    (hl : l ≠ []) :
    nodeIn (nodes.filter fun e => !p e.1) l = if p l then none else nodeIn nodes l := by
  cases l with
  | nil => exact absurd rfl hl
  | cons a as =>
    simp only [nodeIn]
    induction nodes with
    | nil => simp
    | cons e rest ih => by_cases he : p e.1 <;> by_cases hx : (a :: as) = e.1 <;> grind

theorem rooted_filter {nodes : List (Location × DiskNode)} {p : Location → Bool}
    (h : ∀ l n, p l → p (l ++ [n]))
    (rooted : ∀ l n, (nodeIn nodes (l ++ [n])).isSome → nodeIn nodes l = some .directory) :
    ∀ l n, (nodeIn (nodes.filter fun e => !p e.1) (l ++ [n])).isSome →
      nodeIn (nodes.filter fun e => !p e.1) l = some .directory := by
  intro l n hs
  rw [nodeIn_filter _ _ (by simp)] at hs
  split at hs
  · simp at hs
  · rename_i hp
    have hd := rooted l n hs
    cases l with
    | nil => rfl
    | cons a as =>
      rw [nodeIn_filter _ _ (by simp)]
      have : ¬ p (a :: as) := fun hl => hp (h _ n hl)
      simp [this, hd]

/-- Removes the nodes for which `p` holds; with a node everything below it has to
go. -/
def remove (d : Disk) (p : Location → Bool) (h : ∀ l n, p l → p (l ++ [n])) : Disk where
  current := d.current
  nodes := d.nodes.filter fun e => !p e.1
  distinct := d.distinct.sublist (List.filter_sublist.map _)
  rooted := rooted_filter h d.rooted

/-- Removes what stands at a location, with everything below it. -/
def removeTree (d : Disk) (l : Location) : Disk :=
  d.remove (fun x => l.isPrefixOf x) fun x n h => by
    simp only [List.isPrefixOf_iff_prefix] at h ⊢
    exact h.trans (List.prefix_append x [n])

/-! ## Resolving paths -/

/-- How many bytes the name of a file may have. -/
def nameLimit : Nat :=
  255

/-- How many bytes a path may have. -/
def pathLimit : Nat :=
  4095

/-- A step from a directory. A text between two slashes that names nothing stays
there. -/
def step (d : Disk) (l : Location) (part : Text) : Except SystemError Location :=
  if d.node? l ≠ some .directory then .error .notDirectory
  else if Path.isVoid part then .ok l
  else if part = ['.', '.'] then .ok l.dropLast
  else if nameLimit < Text.size part then .error .nameTooLong
  else if (d.node? (l ++ [part])).isNone then .error .noEntry
  else .ok (l ++ [part])

/-- Where a path starts, with the texts between its slashes. -/
def start? (d : Disk) (p : Path) : Except SystemError (Location × List Text) :=
  if p.text.contains '\x00' then .error .nulInName
  else if p.text.isEmpty then .error .noEntry
  else if pathLimit < Text.size p.text then .error .nameTooLong
  else if p.isAbsolute then .ok ([], (p.text.drop 1).splitOn '/')
  else .ok (d.current, p.text.splitOn '/')

/-- The location that a path leads to, where something is found. -/
def find? (d : Disk) (p : Path) : Except SystemError Location := do
  let (l, parts) ← d.start? p
  parts.foldlM d.step l

/-- The last part of a path. -/
inductive LastPart where
  /-- A name; `slash` tells that a slash stands behind it. -/
  | name (n : Text) (slash : Bool)
  /-- Dots or nothing: a directory that is there already. -/
  | dots
deriving DecidableEq

/-- The directory in which the last part of a path is looked up, and that part. -/
def holder? (d : Disk) (p : Path) : Except SystemError (Location × LastPart) := do
  let (l, parts) ← d.start? p
  let slashes := parts.reverse.takeWhile List.isEmpty
  match parts.reverse.dropWhile List.isEmpty with
  | [] => return (l, .dots)
  | last :: before =>
    let folder ← before.reverse.foldlM d.step l
    if d.node? folder ≠ some .directory then .error .notDirectory
    else if last = ['.'] || last = ['.', '.'] then return (folder, .dots)
    else if nameLimit < Text.size last then .error .nameTooLong
    else return (folder, .name last (!slashes.isEmpty))

/-! ## Looking at a disk -/

/-- What a path leads to. -/
def lookUp (d : Disk) (p : Path) : Except SystemError DiskNode := do
  match d.node? (← d.find? p) with
  | some n => return n
  | none => .error .noEntry

/-- The contents of a file. -/
def read (d : Disk) (p : Path) : Except SystemError ByteArray := do
  match ← d.lookUp p with
  | .file contents => return contents
  | .directory => .error .isDirectory

/-- Whether a path leads to a file. -/
def isFile (d : Disk) (p : Path) : Bool :=
  match d.lookUp p with
  | .ok (.file _) => true
  | _ => false

/-- Whether a path leads to a directory. -/
def isDirectory (d : Disk) (p : Path) : Bool :=
  d.lookUp p matches .ok .directory

/-- The normal form of a location. -/
def normalOf (l : Location) : NormalPath :=
  ⟨true, 0, l⟩

/-- What a path stands for: the location that it leads to, or the normal form of
its spelling when it leads to nothing. -/
def resolve (d : Disk) (p : Path) : NormalPath :=
  match d.find? p with
  | .ok l => normalOf l
  | .error _ => p.normal

/-- The locations of all files. -/
def files (d : Disk) : List Location :=
  d.nodes.filterMap fun
    | (l, .file _) => some l
    | (_, .directory) => none

end Disk

end Folio
