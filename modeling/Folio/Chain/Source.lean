import Folio.Disk.SystemError
import Folio.Path

/-!
# Sources of documents

A `Source` is where a chain of templates is read from. It answers the text of
the document at a path and the identity of that document, so that two spellings
of one path are known to be the same document. It holds finitely many documents;
that is what ends every walk. A `Shelf` holds its documents in memory, one for each
normal form.
-/

namespace Folio

/-- Why a document could not be read. -/
inductive ReadError where
  | noDocument (path : Path)
  | system (e : SystemError)
  | notUtf8
deriving DecidableEq

/-- The wording of a reason. -/
def ReadError.message : ReadError → String
  | .noDocument path =>
    let shown := path.display
    s!"no document at `{shown}`"
  | .system e => e.message
  | .notUtf8 => "stream did not contain valid UTF-8"

/-- Documents that can be read by their paths. -/
structure Source where
  read : Path → Except ReadError Text
  identity : Path → NormalPath
  /-- The identities of all documents. -/
  documents : List NormalPath
  identity_mem : ∀ {p t}, read p = .ok t → identity p ∈ documents

/-- Documents held in memory, by the normal forms of their paths. -/
structure Shelf where
  documents : List (NormalPath × Text)
  distinct : (documents.map (·.1)).Nodup

namespace Shelf

/-- The shelf without documents. -/
def empty : Shelf :=
  ⟨[], .nil⟩

theorem nodup_insert {documents : List (NormalPath × Text)} {n : NormalPath} {text : Text}
    (h : (documents.map (·.1)).Nodup) :
    (((n, text) :: documents.filter (·.1 ≠ n)).map (·.1)).Nodup := by
  rw [List.map_cons, List.nodup_cons]
  refine ⟨?_, h.sublist (List.filter_sublist.map _)⟩
  simp

/-- Puts a document on the shelf, in place of one that has the same normal form. -/
def insert (s : Shelf) (p : Path) (text : Text) : Shelf where
  documents := (p.normal, text) :: s.documents.filter (·.1 ≠ p.normal)
  distinct := nodup_insert s.distinct

/-- The text of the document at `p`. -/
def read (s : Shelf) (p : Path) : Except ReadError Text :=
  match s.documents.lookup p.normal with
  | some text => .ok text
  | none => .error (.noDocument p)

theorem normal_mem_of_read {s : Shelf} {p : Path} {t : Text} (h : s.read p = .ok t) :
    p.normal ∈ s.documents.map (·.1) := by
  unfold read at h
  split at h
  · rename_i text hl
    obtain ⟨l₁, l₂, he, _⟩ := List.lookup_eq_some_iff.1 hl
    simp [he]
  · cases h

/-- A shelf as a source: the identity of a document is the normal form of its path. -/
def source (s : Shelf) : Source where
  read := s.read
  identity := Path.normal
  documents := s.documents.map (·.1)
  identity_mem := normal_mem_of_read

end Shelf

end Folio
