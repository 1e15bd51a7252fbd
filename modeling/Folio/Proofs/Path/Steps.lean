import Mathlib.Data.List.Basic
import Folio.Proofs.Disk.Place

/-!
# The steps of a path

Of the texts between the slashes of a path some lead nowhere : those that are empty, and
single dots. The others are the steps of the path (`Path.steps`). A parent has one step
less (`Path.steps_of_parent?`), and a joined path has the steps of both
(`Path.steps_join`). A relative path that never goes up has its steps as its normal form
(`Path.normal_of_relative`).
-/

namespace Folio

namespace Path

variable {p q : Path} {parts rest before : List Text} {lead : Lead} {n : Text}

/-- The parts of a path that lead somewhere. -/
def steps (p : Path) : List Text :=
  (p.text.splitOn '/').filter fun part => !isVoid part

/-- Whether the last part of a path leads somewhere, if any part does. -/
def Trimmed (p : Path) : Prop :=
  p.steps = [] ∨ ∃ before n, p.text.splitOn '/' = before ++ [n] ∧ ¬isVoid n

theorem not_isVoid_of_mem_steps (h : n ∈ p.steps) : ¬isVoid n := by
  simpa using (List.mem_filter.1 h).2

theorem slash_notMem_of_mem_steps (h : n ∈ p.steps) : '/' ∉ n :=
  Text.notMem_of_mem_splitOn (List.mem_filter.1 h).1

/-- The last part of a path that is trimmed is its last step. -/
theorem Trimmed.exists_splitOn (h : p.Trimmed) (hsteps : p.steps = before ++ [n]) :
    ∃ parts, p.text.splitOn '/' = parts ++ [n] ∧
      parts.filter (fun part => !isVoid part) = before := by
  rcases h with hnil | ⟨parts, last, hsplit, hlast⟩
  · rw [hnil] at hsteps
    exact absurd hsteps.symm (List.append_ne_nil_of_right_ne_nil before (List.cons_ne_nil n []))
  · have hfilter : p.steps = parts.filter (fun part => !isVoid part) ++ [last] := by
      rw [steps, hsplit, List.filter_append, List.filter_cons_of_pos (by simpa using hlast)]
      rfl
    obtain ⟨hparts, hsame⟩ := List.append_inj' (hfilter.symm.trans hsteps) rfl
    obtain rfl := List.head_eq_of_cons_eq hsame
    exact ⟨parts, hsplit, hparts⟩

/-! ## Parents -/

theorem dropLastPart?_eq_some (h : dropLastPart? parts = some rest) :
    ∃ n blanks more, parts = rest ++ blanks ++ n :: more ∧ ¬isVoid n ∧
      (∀ b ∈ blanks, isVoid b) ∧ (∀ b ∈ more, isVoid b) ∧
      (rest = [] ∨ ∃ before last, rest = before ++ [last] ∧ ¬isVoid last) := by
  unfold dropLastPart? at h
  split at h
  · cases h
  rename_i n behind hlast
  obtain rfl := Option.some.inj h
  have hn := List.head?_dropWhile_not isVoid parts.reverse
  rw [hlast] at hn
  have hparts := congrArg List.reverse
    (List.takeWhile_append_dropWhile (p := isVoid) (l := parts.reverse))
  have hbehind := congrArg List.reverse
    (List.takeWhile_append_dropWhile (p := isVoid) (l := behind))
  rw [hlast, List.reverse_append, List.reverse_cons, List.append_assoc, List.reverse_reverse]
    at hparts
  rw [List.reverse_append] at hbehind
  refine ⟨n, (behind.takeWhile isVoid).reverse, (parts.reverse.takeWhile isVoid).reverse, ?_,
    by simpa using hn, fun b hb => ?_, fun b hb => ?_, ?_⟩
  · rw [hbehind]
    exact hparts.symm
  · exact List.all_eq_true.1 List.all_takeWhile b (List.mem_reverse.1 hb)
  · exact List.all_eq_true.1 List.all_takeWhile b (List.mem_reverse.1 hb)
  · cases hrest : behind.dropWhile isVoid with
    | nil => exact Or.inl rfl
    | cons last before =>
      have hvoid := List.head?_dropWhile_not isVoid behind
      rw [hrest] at hvoid
      exact Or.inr ⟨before.reverse, last, List.reverse_cons, by simpa using hvoid⟩

theorem dropLastPart?_eq_none (h : dropLastPart? parts = none) : ∀ part ∈ parts, isVoid part := by
  unfold dropLastPart? at h
  split at h
  · rename_i hnil
    intro part hpart
    refine Classical.byContradiction fun hvoid => ?_
    have hdrop := List.takeWhile_append_dropWhile (p := isVoid) (l := parts.reverse)
    rw [hnil, List.append_nil] at hdrop
    rw [← List.mem_reverse, ← hdrop] at hpart
    exact hvoid (List.all_eq_true.1 List.all_takeWhile part hpart)
  · cases h

/-- A path is its lead and the parts that follow. -/
theorem unsplit_split (p : Path) : unsplit p.split.1 p.split.2 = p := by
  have hjoin : ∀ t : Text, Text.join ['/'] (t.splitOn '/') = t := fun t =>
    List.intercalate_splitOn '/'
  obtain ⟨text⟩ := p
  unfold split
  split
  · rename_i rest htext
    dsimp only [unsplit]
    rw [hjoin, ← htext]
  · split
    · rename_i rest hsplit
      have htext := hjoin text
      rw [hsplit] at htext
      dsimp only [unsplit]
      cases rest with
      | nil => exact congrArg Path.mk htext
      | cons part more =>
        rw [if_neg (List.cons_ne_nil part more)]
        exact congrArg Path.mk htext
    · exact congrArg Path.mk (hjoin text)

theorem slash_notMem_of_split (h : n ∈ p.split.2) : '/' ∉ n := by
  unfold split at h
  split at h
  · exact Text.notMem_of_mem_splitOn h
  · split at h
    · rename_i rest hsplit
      refine Text.notMem_of_mem_splitOn (t := p.text) ?_
      rw [hsplit]
      exact List.mem_cons_of_mem _ h
    · exact Text.notMem_of_mem_splitOn h

/-- The texts between the slashes of a path that is put together : those of the lead lead
nowhere. -/
theorem exists_splitOn_unsplit (lead : Lead) (h : ∀ part ∈ parts, '/' ∉ part) :
    ∃ blanks, (∀ b ∈ blanks, isVoid b) ∧
      ((unsplit lead parts).text.splitOn '/' = blanks ++ parts ∨
        parts = [] ∧ (unsplit lead parts).text.splitOn '/' = blanks) := by
  by_cases hnil : parts = []
  · rw [hnil]
    cases lead with
    | root => exact ⟨[[], []], by decide, Or.inr ⟨rfl, rfl⟩⟩
    | here => exact ⟨[['.']], by decide, Or.inr ⟨rfl, rfl⟩⟩
    | none => exact ⟨[[]], by decide, Or.inr ⟨rfl, rfl⟩⟩
  · have hbody : (Text.join ['/'] parts).splitOn '/' = parts :=
      List.splitOn_intercalate '/' h hnil
    cases lead with
    | root =>
      refine ⟨[[]], by decide, Or.inl ?_⟩
      show ([] ++ '/' :: Text.join ['/'] parts).splitOn '/' = [] :: parts
      rw [List.splitOn_append_cons_self, hbody]
      rfl
    | here =>
      refine ⟨[['.']], by decide, Or.inl ?_⟩
      have htext : (unsplit .here parts).text = ['.'] ++ '/' :: Text.join ['/'] parts := by
        dsimp only [unsplit]
        rw [if_neg hnil]
        rfl
      rw [htext, List.splitOn_append_cons_self, hbody]
      rfl
    | none => exact ⟨[], nofun, Or.inl hbody⟩

theorem filter_not_isVoid_eq_nil (h : ∀ b ∈ parts, isVoid b) :
    parts.filter (fun part => !isVoid part) = [] := by
  rw [List.filter_eq_nil_iff]
  exact fun b hb hfalse => by simp [h b hb] at hfalse

theorem steps_unsplit (lead : Lead) (h : ∀ part ∈ parts, '/' ∉ part) :
    (unsplit lead parts).steps = parts.filter fun part => !isVoid part := by
  obtain ⟨blanks, hblanks, hsplit | ⟨rfl, hsplit⟩⟩ := exists_splitOn_unsplit lead h
  · rw [steps, hsplit, List.filter_append, filter_not_isVoid_eq_nil hblanks]
    rfl
  · rw [steps, hsplit, filter_not_isVoid_eq_nil hblanks]
    rfl

theorem steps_eq_filter_split (p : Path) :
    p.steps = p.split.2.filter fun part => !isVoid part := by
  conv_lhs => rw [← unsplit_split p]
  exact steps_unsplit p.split.1 fun part => slash_notMem_of_split

/-- What is put together from the first parts spells a beginning of the path. -/
theorem unsplit_prefix (lead : Lead) (parts more : List Text) :
    (unsplit lead parts).text <+: (unsplit lead (parts ++ more)).text := by
  have hjoin : ∀ parts more : List Text,
      Text.join ['/'] parts <+: Text.join ['/'] (parts ++ more) := by
    intro parts more
    induction parts with
    | nil => exact List.nil_prefix
    | cons part rest ih =>
      cases rest with
      | nil =>
        cases more with
        | nil => exact List.prefix_refl _
        | cons next more =>
          simp only [Text.join, List.cons_append, List.nil_append, List.intercalate_cons_cons,
            List.intercalate_singleton, List.append_assoc]
          exact List.prefix_append _ _
      | cons next rest =>
        simp only [Text.join, List.cons_append, List.intercalate_cons_cons] at ih ⊢
        exact (List.prefix_append_right_inj _).2 ih
  cases lead with
  | root => exact List.cons_prefix_cons.2 ⟨rfl, hjoin parts more⟩
  | none => exact hjoin parts more
  | here =>
    dsimp only [unsplit]
    by_cases hnil : parts = []
    · rw [if_pos hnil]
      split
      · exact List.prefix_refl _
      · exact List.cons_prefix_cons.2 ⟨rfl, List.nil_prefix⟩
    · rw [if_neg hnil, if_neg fun h => hnil (List.append_eq_nil_iff.1 h).1]
      exact List.cons_prefix_cons.2 ⟨rfl, List.cons_prefix_cons.2 ⟨rfl, hjoin parts more⟩⟩

theorem isAbsolute_iff_split : p.isAbsolute ↔ p.split.1 = .root := by
  obtain ⟨text⟩ := p
  rw [isAbsolute_iff]
  constructor
  · rintro ⟨rest, rfl⟩
    rfl
  · intro h
    unfold split at h
    split at h
    · rename_i rest htext
      exact ⟨rest, htext⟩
    · split at h <;> cases h

/-- A parent is put together from the parts in front of the last step; a path without a
step has the empty path as its parent, if it begins with a dot. -/
theorem parent?_eq_some (h : p.parent? = some q) :
    (∃ rest, dropLastPart? p.split.2 = some rest ∧ q = unsplit p.split.1 rest) ∨
      p.split.1 = .here ∧ dropLastPart? p.split.2 = none ∧ q = ⟨[]⟩ := by
  unfold parent? at h
  dsimp only at h
  split at h
  · rename_i rest hrest
    exact Or.inl ⟨rest, hrest, (Option.some.inj h).symm⟩
  · rename_i hnone
    split at h
    · rename_i hlead
      exact Or.inr ⟨hlead, hnone, (Option.some.inj h).symm⟩
    · cases h

theorem steps_of_dropLastPart?_eq_none (h : dropLastPart? p.split.2 = none) : p.steps = [] := by
  rw [steps_eq_filter_split]
  exact filter_not_isVoid_eq_nil (dropLastPart?_eq_none h)

/-- A parent has all steps but the last one. -/
theorem steps_of_parent? (h : p.parent? = some q) : q.steps = p.steps.dropLast := by
  rcases parent?_eq_some h with ⟨rest, hrest, rfl⟩ | ⟨-, hnone, rfl⟩
  · obtain ⟨n, blanks, more, hparts, hn, hblanks, hmore, -⟩ := dropLastPart?_eq_some hrest
    have hslash : ∀ part ∈ rest, '/' ∉ part := by
      intro part hpart
      refine slash_notMem_of_split (p := p) ?_
      rw [hparts]
      exact List.mem_append_left _ (List.mem_append_left _ hpart)
    rw [steps_unsplit _ hslash, steps_eq_filter_split, hparts, List.filter_append,
      List.filter_append, filter_not_isVoid_eq_nil hblanks,
      List.filter_cons_of_pos (by simpa using hn), filter_not_isVoid_eq_nil hmore,
      List.append_nil, List.dropLast_concat]
  · rw [steps_of_dropLastPart?_eq_none hnone]
    rfl

theorem trimmed_of_parent? (h : p.parent? = some q) : q.Trimmed := by
  rcases parent?_eq_some h with ⟨rest, hrest, rfl⟩ | ⟨-, -, rfl⟩
  · obtain ⟨n, blanks, more, hparts, -, -, -, hlast⟩ := dropLastPart?_eq_some hrest
    have hslash : ∀ part ∈ rest, '/' ∉ part := by
      intro part hpart
      refine slash_notMem_of_split (p := p) ?_
      rw [hparts]
      exact List.mem_append_left _ (List.mem_append_left _ hpart)
    rcases hlast with rfl | ⟨before, last, rfl, hlast⟩
    · exact Or.inl (steps_unsplit _ hslash)
    · obtain ⟨front, -, hsplit | ⟨hnil, -⟩⟩ := exists_splitOn_unsplit p.split.1 hslash
      · refine Or.inr ⟨front ++ before, last, ?_, hlast⟩
        rw [hsplit, List.append_assoc]
      · exact absurd hnil (List.append_ne_nil_of_right_ne_nil before (List.cons_ne_nil last []))
  · exact Or.inl rfl

/-- The spelling of a parent is where the spelling of the path begins. -/
theorem text_prefix_of_parent? (h : p.parent? = some q) : q.text <+: p.text := by
  rcases parent?_eq_some h with ⟨rest, hrest, rfl⟩ | ⟨-, -, rfl⟩
  · obtain ⟨n, blanks, more, hparts, -⟩ := dropLastPart?_eq_some hrest
    conv_rhs => rw [← unsplit_split p, hparts, List.append_assoc]
    exact unsplit_prefix _ rest _
  · exact List.nil_prefix

theorem isAbsolute_of_parent? (h : p.parent? = some q) : q.isAbsolute = p.isAbsolute := by
  obtain ⟨more, hmore⟩ := text_prefix_of_parent? h
  by_cases habs : p.isAbsolute
  · have hlead := isAbsolute_iff_split.1 habs
    rcases parent?_eq_some h with ⟨rest, -, rfl⟩ | ⟨hhere, -⟩
    · rw [hlead, habs]
      rfl
    · rw [hlead] at hhere
      cases hhere
  · have hq : ¬q.isAbsolute := by
      intro hq
      obtain ⟨rest, hrest⟩ := isAbsolute_iff.1 hq
      refine habs (isAbsolute_iff.2 ⟨rest ++ more, ?_⟩)
      rw [← hmore, hrest]
      rfl
    rw [Bool.not_eq_true] at habs hq
    rw [habs, hq]

theorem exists_parent?_of_steps (h : p.steps ≠ []) : ∃ q, p.parent? = some q := by
  cases hrest : dropLastPart? p.split.2 with
  | none => exact absurd (steps_of_dropLastPart?_eq_none hrest) h
  | some rest =>
    refine ⟨unsplit p.split.1 rest, ?_⟩
    unfold parent?
    dsimp only
    rw [hrest]

/-! ## Joined paths and names -/

theorem steps_join (hq : ¬q.isAbsolute) : (p.join q).steps = p.steps ++ q.steps := by
  by_cases hp : p.text = []
  · have hjoin : p.join q = q := by
      rw [join, if_neg hq]
      simp [hp]
    rw [hjoin, steps.eq_1 p, hp]
    rfl
  · obtain ⟨a, ha, hpa⟩ := exists_text_join hp hq
    have hsteps : p.steps = (a.splitOn '/').filter fun part => !isVoid part := by
      rcases hpa with hpa | hpa
      · rw [steps, hpa]
      · rw [steps, hpa, List.splitOn_append_cons_self, List.filter_append]
        exact List.append_nil _
    rw [steps, ha, List.splitOn_append_cons_self, List.filter_append, hsteps]
    rfl

theorem steps_name (h : n.IsName) : (⟨n⟩ : Path).steps = [n] := by
  rw [steps, List.splitOn_eq_singleton h.2.2, List.filter_cons_of_pos (by simpa using h.1)]
  rfl

/-- The components of parts are those of the steps among them. -/
theorem filterMap_component? (parts : List Text) : parts.filterMap component? =
    (parts.filter fun part => !isVoid part).filterMap component? := by
  rw [List.filterMap_filter]
  refine List.filterMap_congr fun part _ => ?_
  unfold component?
  cases isVoid part <;> rfl

theorem components_eq (p : Path) :
    p.components = p.split.1.components ++ p.steps.filterMap component? := by
  show p.split.1.components ++ p.split.2.filterMap component? = _
  rw [filterMap_component?, ← steps_eq_filter_split]

/-- There are at least as many components as steps. -/
theorem length_steps_le (p : Path) : p.steps.length ≤ p.components.length := by
  have hsome : ∀ n ∈ p.steps, (component? n).isSome := by
    intro n hn
    rw [component?, if_neg (not_isVoid_of_mem_steps hn)]
    split <;> rfl
  rw [components_eq, List.length_append, List.filterMap_length_eq_length.2 hsome]
  exact Nat.le_add_left _ _

/-- The last component is what the last step stands for. -/
theorem getLast?_components (h : p.steps = before ++ [n]) :
    p.components.getLast? = some (if n = ['.', '.'] then .up else .name n) := by
  have hvoid : ¬isVoid n := not_isVoid_of_mem_steps (by rw [h]; simp)
  have hlast : [n].filterMap component? = [if n = ['.', '.'] then .up else .name n] := by
    rw [List.filterMap_cons, component?, if_neg hvoid]
    by_cases hup : n = ['.', '.']
    · rw [if_pos hup, if_pos hup]
      rfl
    · rw [if_neg hup, if_neg hup]
      rfl
  rw [components_eq, h, List.filterMap_append, hlast, ← List.append_assoc, List.getLast?_concat]

/-- The file name of a path is its last step, unless that leads up. -/
theorem fileName?_eq_some_iff :
    p.fileName? = some n ↔ ∃ before, p.steps = before ++ [n] ∧ n ≠ ['.', '.'] := by
  constructor
  · intro h
    unfold fileName? at h
    rcases List.eq_nil_or_concat p.steps with hnil | ⟨before, last, hsteps⟩
    · rw [components_eq, hnil] at h
      cases hlead : p.split.1 <;> rw [hlead] at h <;> cases h
    · rw [List.concat_eq_append] at hsteps
      rw [getLast?_components hsteps] at h
      by_cases hup : last = ['.', '.']
      · rw [if_pos hup] at h
        cases h
      · rw [if_neg hup] at h
        cases h
        exact ⟨before, hsteps, hup⟩
  · rintro ⟨before, hsteps, hup⟩
    rw [fileName?, getLast?_components hsteps, if_neg hup]

/-- The components of a path that never goes up are the names of its steps. -/
theorem components_of_descending (hup : .up ∉ p.components) :
    ['.', '.'] ∉ p.steps ∧ p.components = p.split.1.components ++ p.steps.map .name := by
  have hstep : ∀ n ∈ p.steps, n ≠ ['.', '.'] ∧ component? n = some (.name n) := by
    intro n hn
    have hvoid := not_isVoid_of_mem_steps hn
    have hne : n ≠ ['.', '.'] := by
      rintro rfl
      refine hup ?_
      rw [components_eq]
      exact List.mem_append_right _ (List.mem_filterMap.2 ⟨_, hn, rfl⟩)
    exact ⟨hne, by rw [component?, if_neg hvoid, if_neg hne]⟩
  refine ⟨fun hmem => (hstep _ hmem).1 rfl, ?_⟩
  rw [components_eq, List.filterMap_congr fun n hn => (hstep n hn).2, List.filterMap_eq_map']

theorem foldl_step_names (names : List Text) (normal : NormalPath) :
    (names.map Component.name).foldl NormalPath.step normal =
      { normal with names := normal.names ++ names } := by
  induction names generalizing normal with
  | nil => rw [List.append_nil]; rfl
  | cons n rest ih =>
    rw [List.map_cons, List.foldl_cons, ih]
    simp only [NormalPath.step, List.append_assoc, List.singleton_append]

/-- The normal form of a relative path that never goes up has its steps as names. -/
theorem normal_of_relative (hrel : ¬p.isAbsolute) (hup : .up ∉ p.components) :
    p.normal = ⟨false, 0, p.steps⟩ := by
  have hlead : p.split.1.components.foldl NormalPath.step .empty = .empty := by
    cases hsplit : p.split.1 with
    | root => exact absurd (isAbsolute_iff_split.2 hsplit) hrel
    | here => rfl
    | none => rfl
  rw [normal, (components_of_descending hup).2, List.foldl_append, hlead, foldl_step_names]
  rfl

end Path

end Folio
