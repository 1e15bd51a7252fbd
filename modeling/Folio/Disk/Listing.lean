import Folio.Disk.Basic

/-!
# Listings of a disk

`Disk.listing` lists everything below a directory in the order of the names, as
they are shown: the name of a directory ends in a slash.
-/

namespace Folio

/-- A line of a listing. A directory has no contents. -/
structure Listed where
  name : Text
  contents : Option ByteArray

namespace Disk

/-- The names below a directory with slashes between them. -/
def listedName (dir l : Location) : Text :=
  Text.join ['/'] (l.drop dir.length)

/-- Everything below a directory. -/
def listing (d : Disk) (dir : Location) : List Listed :=
  let below := d.nodes.filter fun e => dir.isPrefixOf e.1 && e.1.length ≠ dir.length
  let listed := below.map fun
    | (l, .directory) => ⟨listedName dir l ++ ['/'], none⟩
    | (l, .file contents) => ⟨listedName dir l, some contents⟩
  listed.mergeSort fun a b => a.name.isUpTo b.name

end Disk

end Folio
