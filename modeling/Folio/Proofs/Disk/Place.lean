import Folio.Disk.Documents
import Folio.Proofs.Text.Fields

/-!
# The places of paths

The spelling of a path says where on a disk it leads, whether anything stands there or
not : `Disk.place`. A path that is joined to another one leads on from its place
(`Disk.place_join`), and an absolute path has its place as its normal form
(`Disk.normal_eq_place`).
-/

namespace Folio

/-- Where a text between two slashes leads from a location. -/
def Location.advance (l : Location) (part : Text) : Location :=
  if Path.isVoid part then l else if part = ['.', '.'] then l.dropLast else l ++ [part]

namespace Location

@[simp] theorem advance_nil (l : Location) : l.advance [] = l := rfl

theorem advance_of_isName {n : Text} (h : n.IsName) (l : Location) :
    l.advance n = l ++ [n] := by
  rw [advance, if_neg h.1, if_neg h.2.1]

theorem foldl_advance_of_isName {names : List Text} (h : ∀ n ∈ names, n.IsName)
    (l : Location) : names.foldl advance l = l ++ names := by
  induction names generalizing l with
  | nil => rw [List.append_nil]; rfl
  | cons n rest ih =>
    obtain ⟨hn, hrest⟩ := List.forall_mem_cons.1 h
    rw [List.foldl_cons, advance_of_isName hn, ih hrest, ← List.append_cons]

/-- The names on the way come from the start or from the parts. -/
theorem mem_foldl_advance {parts : List Text} {l : Location} {n : Text}
    (h : n ∈ parts.foldl advance l) : n ∈ l ∨ (n ∈ parts ∧ ¬Path.isVoid n ∧ n ≠ ['.', '.']) := by
  induction parts generalizing l with
  | nil => exact Or.inl h
  | cons part rest ih =>
    rcases ih h with hl | ⟨hmem, hname⟩
    · unfold advance at hl
      split at hl
      · exact Or.inl hl
      split at hl
      · exact Or.inl (List.dropLast_subset l hl)
      · rename_i hvoid hup
        rcases List.mem_append.1 hl with hl | hl
        · exact Or.inl hl
        · obtain rfl := List.mem_singleton.1 hl
          exact Or.inr ⟨List.mem_cons_self, hvoid, hup⟩
    · exact Or.inr ⟨List.mem_cons_of_mem part hmem, hname⟩

end Location

/-! ## Joining -/

namespace Path

theorem isAbsolute_iff {p : Path} : p.isAbsolute ↔ ∃ rest, p.text = '/' :: rest := by
  rw [isAbsolute, decide_eq_true_iff]
  cases p.text <;> simp

theorem text_ne_nil_of_isAbsolute {p : Path} (h : p.isAbsolute) : p.text ≠ [] := by
  obtain ⟨rest, hrest⟩ := isAbsolute_iff.1 h
  rw [hrest]
  exact List.cons_ne_nil _ _

/-- The path that a relative path leads to from a path that is not empty : one text
stands in front of a slash, the other one behind it. -/
theorem exists_text_join {p q : Path} (hp : p.text ≠ []) (hq : ¬q.isAbsolute) :
    ∃ a, (p.join q).text = a ++ '/' :: q.text ∧ (p.text = a ∨ p.text = a ++ ['/']) := by
  have hemp : (p.text = [] ↔ False) := iff_of_false hp id
  unfold join
  rw [if_neg hq]
  by_cases hlast : p.text.getLast? = some '/'
  · obtain ⟨a, ha⟩ := List.getLast?_eq_some_iff.1 hlast
    refine ⟨a, ?_, Or.inr ha⟩
    simp [ha]
  · refine ⟨p.text, ?_, Or.inl rfl⟩
    simp [hp, hlast]

theorem text_join_ne_nil {p q : Path} (hp : p.text ≠ []) (hq : ¬q.isAbsolute) :
    (p.join q).text ≠ [] := by
  obtain ⟨a, ha, -⟩ := exists_text_join hp hq
  rw [ha]
  exact List.append_ne_nil_of_right_ne_nil a (List.cons_ne_nil _ _)

/-- A path that is spelled by names is relative. -/
theorem not_isAbsolute_of_isName {p : Path} (h : ∀ n ∈ p.text.splitOn '/', Text.IsName n) :
    ¬p.isAbsolute := by
  intro habs
  obtain ⟨rest, hrest⟩ := isAbsolute_iff.1 habs
  have hfirst : [] ∈ p.text.splitOn '/' := by
    rw [hrest, List.splitOn_cons_eq_if_modifyHead, if_pos (beq_self_eq_true '/')]
    exact List.mem_cons_self
  exact (h [] hfirst).1 rfl

theorem not_isAbsolute_of_name {n : Text} (h : n.IsName) : ¬(⟨n⟩ : Path).isAbsolute := by
  intro habs
  obtain ⟨rest, hrest⟩ := isAbsolute_iff.1 habs
  exact h.2.2 (by simp [show n = '/' :: rest from hrest])

/-- A relative path leads on from where a path starts. -/
theorem isAbsolute_join_of_relative {p q : Path} (hq : ¬q.isAbsolute) :
    (p.join q).isAbsolute = p.isAbsolute := by
  by_cases hp : p.text = []
  · have hjoin : p.join q = q := by
      rw [join, if_neg hq]
      simp [hp]
    rw [Bool.not_eq_true] at hq
    rw [hjoin, hq]
    simp [isAbsolute, hp]
  · obtain ⟨a, ha, hpa⟩ := exists_text_join hp hq
    rw [isAbsolute, isAbsolute, ha]
    rcases hpa with hpa | hpa <;> cases a <;> simp_all

theorem isAbsolute_join {p q : Path} (hp : p.isAbsolute) : (p.join q).isAbsolute := by
  by_cases hq : q.isAbsolute
  · rw [join, if_pos hq]
    exact hq
  · obtain ⟨rest, hrest⟩ := isAbsolute_iff.1 hp
    have hne : p.text ≠ [] := by simp [hrest]
    rw [isAbsolute_iff, join, if_neg hq]
    split <;> simp [hrest]

end Path

namespace Disk

/-- The location that the spelling of a path names. -/
def place (d : Disk) (p : Path) : Location :=
  (p.text.splitOn '/').foldl Location.advance (if p.isAbsolute then [] else d.current)

variable {d d' : Disk} {p q : Path} {l m : Location}

theorem place_congr (h : d'.current = d.current) (p : Path) : d'.place p = d.place p := by
  rw [place, place, h]

theorem place_of_isAbsolute (h : p.isAbsolute) :
    d.place p = ((p.text.drop 1).splitOn '/').foldl Location.advance [] := by
  obtain ⟨rest, hrest⟩ := Path.isAbsolute_iff.1 h
  have hsplit : p.text.splitOn '/' = [] :: rest.splitOn '/' := by
    rw [hrest, List.splitOn_cons_eq_if_modifyHead, if_pos (beq_self_eq_true '/')]
  rw [place, if_pos h, hsplit, hrest]
  rfl

theorem place_join (hq : ¬q.isAbsolute) :
    d.place (p.join q) = (q.text.splitOn '/').foldl Location.advance (d.place p) := by
  by_cases hp : p.text = []
  · have hjoin : p.join q = q := by
      rw [Path.join, if_neg hq]
      simp [hp]
    have hrel : ¬p.isAbsolute := by simp [Path.isAbsolute, hp]
    have hplace : d.place p = d.current := by
      rw [place, if_neg hrel, hp]
      rfl
    rw [hjoin, hplace, place, if_neg hq]
  · obtain ⟨a, ha, hpa⟩ := Path.exists_text_join hp hq
    have habs : (p.join q).isAbsolute = p.isAbsolute := Path.isAbsolute_join_of_relative hq
    have hplace : d.place p = (a.splitOn '/').foldl Location.advance
        (if p.isAbsolute then [] else d.current) := by
      rcases hpa with hpa | hpa
      · rw [place, hpa]
      · rw [place, hpa, List.splitOn_append_cons_self, List.foldl_append]
        rfl
    rw [hplace, place, habs, ha, List.splitOn_append_cons_self, List.foldl_append]

theorem place_join_name {n : Text} (h : n.IsName) :
    d.place (p.join ⟨n⟩) = d.place p ++ [n] := by
  have hsplit : n.splitOn '/' = [n] := List.splitOn_eq_singleton h.2.2
  rw [place_join (Path.not_isAbsolute_of_name h), hsplit]
  exact Location.advance_of_isName h _

/-- A path that goes down name by name leads to these names below its start. -/
theorem place_foldl_join {names : List Text} (h : ∀ n ∈ names, n.IsName) :
    d.place (names.foldl (fun p n => p.join ⟨n⟩) p) = d.place p ++ names := by
  induction names generalizing p with
  | nil => simp
  | cons n rest ih =>
    rw [List.forall_mem_cons] at h
    rw [List.foldl_cons, ih h.2, place_join_name h.1, List.append_assoc]
    rfl

/-- A place has names of components only, for a relative path if the current directory
has. -/
theorem isName_of_mem_place (h : p.isAbsolute ∨ ∀ n ∈ d.current, n.IsName) {n : Text}
    (hn : n ∈ d.place p) : n.IsName := by
  rw [place] at hn
  rcases Location.mem_foldl_advance hn with hstart | ⟨hmem, hvoid, hup⟩
  · split at hstart
    · exact absurd hstart List.not_mem_nil
    · rename_i hrel
      exact h.resolve_left hrel n hstart
  · exact ⟨hvoid, hup, Text.notMem_of_mem_splitOn hmem⟩

/-- What leads from a location to the place of an absolute path are names. -/
theorem isName_of_place_eq (h : p.isAbsolute) {above : Location} {names : List Text}
    (hplace : d.place p = above ++ names) : ∀ n ∈ names, n.IsName := by
  intro n hn
  refine isName_of_mem_place (d := d) (Or.inl h) ?_
  rw [hplace]
  exact List.mem_append_right above hn

/-! ## Normal forms -/

theorem step_normalOf (l : Location) (part : Text) :
    (Path.component? part).toList.foldl NormalPath.step (normalOf l) =
      normalOf (l.advance part) := by
  unfold Path.component? Location.advance
  split
  · rfl
  split
  · cases l <;> rfl
  · rfl

theorem foldl_step_normalOf (parts : List Text) (l : Location) :
    (parts.filterMap Path.component?).foldl NormalPath.step (normalOf l) =
      normalOf (parts.foldl Location.advance l) := by
  induction parts generalizing l with
  | nil => rfl
  | cons part rest ih =>
    rw [List.foldl_cons, ← ih, ← step_normalOf]
    cases hc : Path.component? part with
    | none => rw [List.filterMap_cons_none hc]; rfl
    | some c => rw [List.filterMap_cons_some hc]; rfl

/-- The normal form of an absolute path is its place. -/
theorem normal_eq_place (h : p.isAbsolute) : p.normal = normalOf (d.place p) := by
  obtain ⟨rest, hrest⟩ := Path.isAbsolute_iff.1 h
  have hsplit : p.split = (.root, rest.splitOn '/') := by
    cases p
    subst hrest
    rfl
  rw [place_of_isAbsolute h, hrest, List.drop_one, List.tail_cons, ← foldl_step_normalOf,
    Path.normal, Path.components, hsplit]
  rfl

theorem normalOf_inj : normalOf l = normalOf m ↔ l = m :=
  ⟨congrArg NormalPath.names, congrArg normalOf⟩

/-! ## Spelling a location -/

theorem isAbsolute_toPath (l : Location) : (normalOf l).toPath.isAbsolute := rfl

/-- A location is the place of its spelling. -/
theorem place_toPath (h : ∀ n ∈ l, n.IsName) : d.place (normalOf l).toPath = l := by
  have htext : (normalOf l).toPath.text = '/' :: Text.join ['/'] l := rfl
  rw [place_of_isAbsolute (isAbsolute_toPath l), htext, List.drop_one, List.tail_cons]
  by_cases hl : l = []
  · rw [hl]
    rfl
  · have hsplit : (Text.join ['/'] l).splitOn '/' = l :=
      List.splitOn_intercalate '/' (fun n hn => (h n hn).2.2) hl
    rw [hsplit, Location.foldl_advance_of_isName h,
      List.nil_append]

end Disk

end Folio
