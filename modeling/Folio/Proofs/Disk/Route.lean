import Mathlib.Data.List.Infix
import Folio.Proofs.Disk.Find

/-!
# What following a path depends on

A path is followed part by part from where it starts, and passes the locations of its
`Disk.route`. Whatever is asked of a disk through a path depends on nothing but what
stands on this route (`Disk.find?_congr`, `Disk.read_congr`, `Disk.holder?_congr`), so
that it has the same answer, or the same error, on every disk that has the same there.
Two disks with the same tree (`Disk.SameTree`) cannot be told apart by any path.
-/

namespace Folio

namespace Disk

variable {d d' : Disk} {p : Path} {l m : Location}

/-- Whether two disks have the same directories and files, and the same current
directory. -/
structure SameTree (d d' : Disk) : Prop where
  current : d'.current = d.current
  node : ∀ l, d'.node? l = d.node? l

theorem SameTree.refl (d : Disk) : SameTree d d :=
  ⟨rfl, fun _ => rfl⟩

/-- Where a path starts from. -/
def origin (d : Disk) (p : Path) : Location :=
  if p.isAbsolute then [] else d.current

theorem origin_congr (h : d'.current = d.current) (p : Path) : d'.origin p = d.origin p := by
  rw [origin, origin, h]

/-- The locations that a path passes, its place among them. -/
def route (d : Disk) (p : Path) : List Location :=
  (p.text.splitOn '/').inits.map (List.foldl Location.advance (d.origin p))

theorem mem_route : l ∈ d.route p ↔
    ∃ passed, passed <+: p.text.splitOn '/' ∧ passed.foldl Location.advance (d.origin p) = l := by
  simp only [route, List.mem_map, List.mem_inits]

theorem place_mem_route (d : Disk) (p : Path) : d.place p ∈ d.route p :=
  mem_route.2 ⟨_, List.prefix_refl _, rfl⟩

/-- The parts that a path is followed by pass locations of its route. -/
theorem mem_route_of_start? {start : Location} {parts passed : List Text}
    (h : d.start? p = .ok (start, parts)) (hpassed : passed <+: parts) :
    passed.foldl Location.advance start ∈ d.route p := by
  obtain ⟨-, heq⟩ := start?_eq_ok_iff.1 h
  rw [mem_route]
  split at heq
  · rename_i habs
    cases heq
    obtain ⟨rest, hrest⟩ := Path.isAbsolute_iff.1 habs
    have hsplit : p.text.splitOn '/' = [] :: (p.text.drop 1).splitOn '/' := by
      rw [hrest, List.splitOn_cons_eq_if_modifyHead, if_pos (beq_self_eq_true '/')]
      rfl
    refine ⟨[] :: passed, ?_, ?_⟩
    · rw [hsplit]
      exact List.cons_prefix_cons.2 ⟨rfl, hpassed⟩
    · rw [origin, if_pos habs]
      rfl
  · rename_i hrel
    cases heq
    exact ⟨passed, hpassed, by rw [origin, if_neg hrel]⟩

/-! ## The same route, the same answer -/

theorem step_congr {part : Text} (hl : d'.node? l = d.node? l)
    (hnext : d'.node? (l.advance part) = d.node? (l.advance part)) :
    d'.step l part = d.step l part := by
  unfold step Location.advance at *
  rw [hl]
  split
  · rfl
  split
  · rfl
  split
  · rfl
  · rename_i hvoid hup
    rw [if_neg hvoid, if_neg hup] at hnext
    rw [hnext]

theorem foldlM_step_congr {parts : List Text}
    (h : ∀ passed, passed <+: parts →
      d'.node? (passed.foldl Location.advance l) = d.node? (passed.foldl Location.advance l)) :
    parts.foldlM d'.step l = parts.foldlM d.step l := by
  induction parts generalizing l with
  | nil => rfl
  | cons part rest ih =>
    have hstep : d'.step l part = d.step l part :=
      step_congr (h [] List.nil_prefix) (h [part] ⟨rest, rfl⟩)
    rw [List.foldlM_cons, List.foldlM_cons, hstep]
    cases hnext : d.step l part with
    | error reason => rfl
    | ok m =>
      obtain rfl := (step_eq_ok_iff.1 hnext).2.2.1
      exact ih fun passed hpassed => h (part :: passed) (List.cons_prefix_cons.2 ⟨rfl, hpassed⟩)

section Congr

variable (hcurrent : d'.current = d.current) (h : ∀ l ∈ d.route p, d'.node? l = d.node? l)
include hcurrent h

theorem find?_congr : d'.find? p = d.find? p := by
  unfold find?
  rw [start?_congr hcurrent]
  cases hstart : d.start? p with
  | error reason => rfl
  | ok start =>
    exact foldlM_step_congr fun passed hpassed => h _ (mem_route_of_start? hstart hpassed)

theorem lookUp_congr : d'.lookUp p = d.lookUp p := by
  unfold lookUp
  rw [find?_congr hcurrent h]
  cases hfind : d.find? p with
  | error reason => rfl
  | ok l =>
    obtain rfl := find?_eq_ok hfind
    dsimp only [bind, Except.bind]
    rw [h _ (place_mem_route d p)]

theorem read_congr : d'.read p = d.read p := by
  rw [read, read, lookUp_congr hcurrent h]

theorem resolve_congr : d'.resolve p = d.resolve p := by
  rw [resolve, resolve, find?_congr hcurrent h]

theorem holder?_congr : d'.holder? p = d.holder? p := by
  unfold holder?
  rw [start?_congr hcurrent]
  cases hstart : d.start? p with
  | error reason => rfl
  | ok start =>
    obtain ⟨l, parts⟩ := start
    dsimp only [bind, Except.bind]
    cases hlast : parts.reverse.dropWhile List.isEmpty with
    | nil => rfl
    | cons last before =>
      have hbefore : before.reverse <+: parts :=
        ⟨_, (eq_append_of_dropWhile_reverse hlast).2.symm⟩
      have hfold : before.reverse.foldlM d'.step l = before.reverse.foldlM d.step l :=
        foldlM_step_congr fun passed hpassed =>
          h _ (mem_route_of_start? hstart (hpassed.trans hbefore))
      dsimp only
      rw [hfold]
      cases hfolder : before.reverse.foldlM d.step l with
      | error reason => rfl
      | ok folder =>
        have hnode : d'.node? folder = d.node? folder := by
          rw [foldlM_step_eq_ok hfolder]
          exact h _ (mem_route_of_start? hstart hbefore)
        show (if d'.node? folder ≠ some .directory then _ else _) =
          if d.node? folder ≠ some .directory then _ else _
        rw [hnode]

end Congr

theorem SameTree.read_eq (h : SameTree d d') (p : Path) : d'.read p = d.read p :=
  read_congr h.current fun l _ => h.node l

end Disk

end Folio
