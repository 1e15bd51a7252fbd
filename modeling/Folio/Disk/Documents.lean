import Folio.Chain.Source
import Folio.Disk.Basic

/-!
# A disk as a source of documents

The files of a disk are documents. A document is known by the location of its
file, so that a walk meets it again under any spelling of its path.
-/

namespace Folio.Disk

/-- The text of a file. -/
def readText (d : Disk) (p : Path) : Except ReadError Text :=
  match d.read p with
  | .error e => .error (.system e)
  | .ok contents =>
    match Text.ofBytes? contents with
    | some t => .ok t
    | none => .error .notUtf8

theorem mem_files {d : Disk} {l : Location} {contents : ByteArray}
    (h : d.node? l = some (.file contents)) : l ∈ d.files := by
  cases l with
  | nil => simp [node?, nodeIn] at h
  | cons a as =>
    obtain ⟨l₁, l₂, he, _⟩ := List.lookup_eq_some_iff.1 h
    refine List.mem_filterMap.2 ⟨(a :: as, .file contents), ?_, rfl⟩
    simp [he]

theorem resolve_mem_files {d : Disk} {p : Path} {t : Text} (h : d.readText p = .ok t) :
    d.resolve p ∈ d.files.map normalOf := by
  unfold readText at h
  cases hr : d.read p with
  | error e => simp [hr] at h
  | ok contents =>
    unfold read lookUp at hr
    cases hf : d.find? p with
    | error e => simp [hf, bind, Except.bind] at hr
    | ok l =>
      cases hn : d.node? l with
      | none => simp [hf, hn, bind, Except.bind] at hr
      | some n =>
        cases n with
        | directory => simp [hf, hn, bind, Except.bind, pure, Except.pure] at hr
        | file c =>
          unfold resolve
          rw [hf]
          exact List.mem_map.2 ⟨l, mem_files hn, rfl⟩

/-- The files of a disk as documents. -/
def source (d : Disk) : Source where
  read := d.readText
  identity := d.resolve
  documents := d.files.map normalOf
  identity_mem := resolve_mem_files

end Folio.Disk
