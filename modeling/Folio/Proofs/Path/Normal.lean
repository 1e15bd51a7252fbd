import Folio.Proofs.Path.Steps

/-!
# Normal forms

A normal form that is well formed (`NormalPath.WellFormed`) has names that name something,
and no steps up at the root. Its spelling has its components and nothing else
(`NormalPath.components_toPath`), so it is the normal form of its spelling
(`NormalPath.normal_toPath`).

`Path.normalize` spells a path anew, component by component, and reads what it has spelled
so far to see what a step up does. One component more gives the spelling of one step more
(`Path.follow_toPath`), and so it ends with the spelling of the normal form
(`Path.normalize_eq_toPath`). `Path.normalize_laws` says what follows : such a spelling is
as absolute as the path, it is `Straight`, it is its own normal spelling, it may replace
the path in front of another one, and two paths share it exactly when their components
evaluate alike.
-/

namespace Folio

/-! ## Parts that lead somewhere -/

/-- Whether a text between slashes leads somewhere. -/
def Path.IsPart (part : Text) : Prop :=
  ¬Path.isVoid part ∧ '/' ∉ part

namespace Path

variable {parts : List Text} {part a b : Text} {lead : Lead}

theorem isPart_up : IsPart ['.', '.'] := by
  unfold IsPart
  decide

theorem IsPart.ne_nil (h : IsPart part) : part ≠ [] := by
  rintro rfl
  exact h.1 rfl

theorem IsPart.not_isAbsolute (h : IsPart part) : ¬(⟨part⟩ : Path).isAbsolute := by
  intro habs
  obtain ⟨rest, hrest⟩ := isAbsolute_iff.1 habs
  dsimp only at hrest
  exact h.2 (by simp [hrest])

theorem splitOn_join (h : ∀ part ∈ parts, IsPart part) (hne : parts ≠ []) :
    (Text.join ['/'] parts).splitOn '/' = parts :=
  List.splitOn_intercalate '/' (fun part hpart => (h part hpart).2) hne

/-- Something stands on both sides of each slash between parts, and no other slash. -/
theorem nil_notMem_of_join_eq (h : ∀ part ∈ parts, IsPart part)
    (hjoin : Text.join ['/'] parts = a ++ '/' :: b) :
    [] ∉ a.splitOn '/' ∧ [] ∉ b.splitOn '/' := by
  have hne : parts ≠ [] := by
    rintro rfl
    simp [Text.join] at hjoin
  have hsplit := splitOn_join h hne
  rw [hjoin, List.splitOn_append_cons_self] at hsplit
  rw [← not_or, ← List.mem_append, hsplit]
  exact fun hmem => (h [] hmem).ne_nil rfl

/-- A slash in what was put together from parts is the root, or stands between parts. -/
theorem text_unsplit_cases (h : ∀ part ∈ parts, IsPart part) (hlead : lead ≠ .here)
    (htext : (unsplit lead parts).text = a ++ '/' :: b) :
    (lead = .root ∧ a = [] ∧ b = Text.join ['/'] parts) ∨ (a ≠ [] ∧ [] ∉ b.splitOn '/') := by
  cases lead with
  | here => exact absurd rfl hlead
  | none =>
    obtain ⟨ha, hb⟩ := nil_notMem_of_join_eq h htext
    refine Or.inr ⟨?_, hb⟩
    rintro rfl
    exact ha List.mem_cons_self
  | root =>
    rcases List.cons_eq_append_iff.1 htext with ⟨ha, hroot⟩ | ⟨a', rfl, hjoin⟩
    · exact Or.inl ⟨rfl, ha, (List.cons.inj hroot).2⟩
    · exact Or.inr ⟨List.cons_ne_nil _ _, (nil_notMem_of_join_eq h hjoin).2⟩

theorem join_ne_nil (h : ∀ part ∈ parts, IsPart part) (hne : parts ≠ []) :
    Text.join ['/'] parts ≠ [] := by
  intro hjoin
  have hsplit := splitOn_join h hne
  rw [hjoin] at hsplit
  exact (h [] (hsplit ▸ List.mem_cons_self)).ne_nil rfl

theorem join_concat (hne : parts ≠ []) (part : Text) :
    Text.join ['/'] (parts ++ [part]) = Text.join ['/'] parts ++ '/' :: part := by
  induction parts with
  | nil => exact absurd rfl hne
  | cons first rest ih =>
    cases rest with
    | nil => simp [Text.join]
    | cons next rest =>
      have hrest := ih (List.cons_ne_nil next rest)
      simp only [Text.join, List.cons_append, List.intercalate_cons_cons] at hrest ⊢
      rw [hrest]
      simp

/-- A part more behind a path that was put together from parts. -/
theorem join_unsplit (h : ∀ part ∈ parts, IsPart part) (hlead : lead ≠ .here)
    (hpart : IsPart part) : (unsplit lead parts).join ⟨part⟩ = unsplit lead (parts ++ [part]) := by
  have hrel := hpart.not_isAbsolute
  by_cases hne : parts = []
  · rw [join, if_neg hrel, hne]
    cases lead <;> simp_all [unsplit, Text.join]
  · have htext : (unsplit lead parts).text ≠ [] := by
      cases lead with
      | here => exact absurd rfl hlead
      | root => exact List.cons_ne_nil _ _
      | none => exact join_ne_nil h hne
    obtain ⟨a, ha, hsame | hslash⟩ := exists_text_join htext hrel
    · rw [← hsame] at ha
      have hjoin : (unsplit lead parts).join ⟨part⟩ =
          ⟨(unsplit lead parts).text ++ '/' :: part⟩ := congrArg Path.mk ha
      rw [hjoin]
      cases lead with
      | here => exact absurd rfl hlead
      | root => exact congrArg (fun body => Path.mk ('/' :: body)) (join_concat hne part).symm
      | none => exact congrArg Path.mk (join_concat hne part).symm
    · -- No slash stands at the end.
      rcases text_unsplit_cases h hlead hslash with ⟨-, -, hnil⟩ | ⟨-, hnil⟩
      · exact absurd hnil.symm (join_ne_nil h hne)
      · exact absurd List.mem_cons_self hnil

theorem isAbsolute_unsplit (h : ∀ part ∈ parts, IsPart part) (hlead : lead ≠ .here) :
    (unsplit lead parts).isAbsolute ↔ lead = .root := by
  constructor
  · intro habs
    obtain ⟨rest, hrest⟩ := isAbsolute_iff.1 habs
    rcases text_unsplit_cases h hlead (a := []) hrest with ⟨hroot, -⟩ | ⟨hne, -⟩
    · exact hroot
    · exact absurd rfl hne
  · rintro rfl
    rfl

/-- Between the slashes stand the parts, and nothing where the root is. -/
theorem mem_splitOn_unsplit (h : ∀ part ∈ parts, IsPart part) (hlead : lead ≠ .here)
    (hpart : part ∈ (unsplit lead parts).text.splitOn '/') : part = [] ∨ part ∈ parts := by
  have hjoin : part ∈ (Text.join ['/'] parts).splitOn '/' → part = [] ∨ part ∈ parts := by
    intro hmem
    by_cases hne : parts = []
    · subst hne
      exact Or.inl (List.mem_singleton.1 hmem)
    · rw [splitOn_join h hne] at hmem
      exact Or.inr hmem
  cases lead with
  | here => exact absurd rfl hlead
  | none => exact hjoin hpart
  | root =>
    have htext : (unsplit .root parts).text = [] ++ '/' :: Text.join ['/'] parts := rfl
    rw [htext, List.splitOn_append_cons_self] at hpart
    rcases List.mem_append.1 hpart with hfront | hmem
    · exact Or.inl (List.mem_singleton.1 hfront)
    · exact hjoin hmem

theorem split_unsplit (h : ∀ part ∈ parts, IsPart part) (hlead : lead ≠ .here)
    (hne : parts ≠ []) : (unsplit lead parts).split = (lead, parts) := by
  cases lead with
  | here => exact absurd rfl hlead
  | root => exact congrArg (Prod.mk Lead.root) (splitOn_join h hne)
  | none =>
    have hsplit : (unsplit .none parts).text.splitOn '/' = parts := splitOn_join h hne
    unfold split
    split
    · rename_i rest hrest
      rcases text_unsplit_cases h hlead (a := []) hrest with ⟨hroot, -⟩ | ⟨hnil, -⟩
      · cases hroot
      · exact absurd rfl hnil
    · rw [hsplit]
      split
      · exact absurd rfl (h ['.'] List.mem_cons_self).1
      · rfl

theorem components_unsplit (h : ∀ part ∈ parts, IsPart part) (hlead : lead ≠ .here) :
    (unsplit lead parts).components = lead.components ++ parts.filterMap component? := by
  by_cases hne : parts = []
  · subst hne
    cases lead with
    | here => exact absurd rfl hlead
    | root => rfl
    | none => rfl
  · rw [components, split_unsplit h hlead hne]

theorem parent?_unsplit (h : ∀ part ∈ parts, IsPart part) (hlead : lead ≠ .here)
    (hpart : IsPart part) :
    (unsplit lead (parts ++ [part])).parent? = some (unsplit lead parts) := by
  have hall : ∀ part' ∈ parts ++ [part], IsPart part' :=
    List.forall_mem_append.2 ⟨h, List.forall_mem_singleton.2 hpart⟩
  have hdrop : dropLastPart? (parts ++ [part]) = some parts := by
    have hrest : parts.reverse.dropWhile isVoid = parts.reverse := by
      cases hrev : parts.reverse with
      | nil => rfl
      | cons last front =>
        have hlast : last ∈ parts := by
          rw [← List.mem_reverse, hrev]
          exact List.mem_cons_self
        exact List.dropWhile_cons_of_neg (h last hlast).1
    rw [dropLastPart?, List.reverse_concat, List.dropWhile_cons_of_neg hpart.1]
    dsimp only
    rw [hrest, List.reverse_reverse]
  rw [parent?, split_unsplit hall hlead (List.append_ne_nil_of_right_ne_nil parts (by simp))]
  dsimp only
  rw [hdrop]

end Path

/-! ## The spelling of a normal form -/

namespace NormalPath

/-- Whether the names of a normal form are names, and the root has nothing above it. -/
structure WellFormed (n : NormalPath) : Prop where
  names : ∀ x ∈ n.names, x.IsName
  ups : n.absolute → n.ups = 0

/-- The texts between the slashes of a normal form. -/
def parts (n : NormalPath) : List Text :=
  List.replicate n.ups ['.', '.'] ++ n.names

/-- What a normal form is spelled with in front. -/
def lead (n : NormalPath) : Path.Lead :=
  if n.absolute then .root else .none

variable {n m : NormalPath} {c : Component} {cs : List Component}

theorem toPath_eq (n : NormalPath) : n.toPath = Path.unsplit n.lead n.parts := rfl

theorem lead_ne_here (n : NormalPath) : n.lead ≠ .here := by
  unfold lead
  split <;> decide

theorem lead_eq_root_iff : n.lead = .root ↔ n.absolute := by
  unfold lead
  split <;> simp_all

theorem WellFormed.isPart (h : n.WellFormed) : ∀ part ∈ n.parts, Path.IsPart part := by
  intro part hpart
  rcases List.mem_append.1 hpart with hup | hname
  · rw [List.eq_of_mem_replicate hup]
    exact Path.isPart_up
  · exact ⟨(h.names part hname).1, (h.names part hname).2.2⟩

theorem isAbsolute_toPath (h : n.WellFormed) : n.toPath.isAbsolute = n.absolute := by
  rw [Bool.eq_iff_iff, toPath_eq, Path.isAbsolute_unsplit h.isPart n.lead_ne_here,
    lead_eq_root_iff]

theorem filterMap_component?_parts (h : n.WellFormed) : n.parts.filterMap Path.component? =
    List.replicate n.ups .up ++ n.names.map .name := by
  have hup : Path.component? ['.', '.'] = some .up := rfl
  have hname : ∀ x ∈ n.names, Path.component? x = some (.name x) := fun x hx => by
    rw [Path.component?, if_neg (h.names x hx).1, if_neg (h.names x hx).2.1]
  rw [parts, List.filterMap_append, List.filterMap_replicate_of_some hup,
    List.filterMap_congr hname, List.filterMap_eq_map']

/-- The spelling of a normal form has its components. -/
theorem components_toPath (h : n.WellFormed) : n.toPath.components = n.components := by
  have hlead : n.lead.components = if n.absolute then [.root] else [] := by
    unfold lead
    split <;> rfl
  rw [toPath_eq, Path.components_unsplit h.isPart n.lead_ne_here, hlead,
    filterMap_component?_parts h, components, List.append_assoc]

theorem foldl_step_ups (k ups : Nat) : (List.replicate k Component.up).foldl step ⟨false, ups, []⟩ =
    ⟨false, ups + k, []⟩ := by
  induction k generalizing ups with
  | zero => rfl
  | succ k ih =>
    rw [List.replicate_succ, List.foldl_cons]
    show (List.replicate k Component.up).foldl step ⟨false, ups + 1, []⟩ = _
    rw [ih, Nat.add_assoc, Nat.add_comm 1]

/-- A normal form is the normal form of its spelling. -/
theorem normal_toPath (h : n.WellFormed) : n.toPath.normal = n := by
  have hfront : ((if n.absolute then [Component.root] else []) ++
      List.replicate n.ups Component.up).foldl step empty = ⟨n.absolute, n.ups, []⟩ := by
    cases habs : n.absolute with
    | true =>
      rw [h.ups habs]
      rfl
    | false =>
      show (List.replicate n.ups Component.up).foldl step ⟨false, 0, []⟩ = _
      rw [foldl_step_ups, Nat.zero_add]
  rw [Path.normal, components_toPath h, components, List.foldl_append, hfront,
    Path.foldl_step_names]
  rfl

/-! ## One step more -/

/-- Whether a component leads on from where a path is. -/
def IsStep (c : Component) : Prop :=
  c = .up ∨ ∃ x : Text, x.IsName ∧ c = .name x

theorem WellFormed.step (h : n.WellFormed) (hc : IsStep c) : (n.step c).WellFormed := by
  rcases hc with rfl | ⟨x, hx, rfl⟩
  · rw [NormalPath.step]
    by_cases hnames : n.names = []
    · rw [if_pos hnames]
      split
      · exact h
      · rename_i habs
        exact ⟨h.names, fun habs' => absurd habs' habs⟩
    · rw [if_neg hnames]
      exact ⟨fun x hx => h.names x (List.dropLast_subset _ hx), h.ups⟩
  · refine ⟨List.forall_mem_append.2 ⟨h.names, List.forall_mem_singleton.2 hx⟩, h.ups⟩

/-- Where no name is left, the last component is the root, a step up, or none. -/
theorem follow_up_of_no_names (h : n.WellFormed) (hnames : n.names = []) :
    n.toPath.follow .up = if n.absolute then n.toPath else n.toPath.join ⟨['.', '.']⟩ := by
  have hcomponents : n.components =
      (if n.absolute then [Component.root] else []) ++ List.replicate n.ups .up := by
    rw [components, hnames]
    exact List.append_nil _
  rw [Path.follow, components_toPath h, hcomponents]
  cases habs : n.absolute with
  | true =>
    rw [h.ups habs]
    rfl
  | false =>
    cases n.ups with
    | zero => rfl
    | succ k =>
      rw [List.replicate_succ', if_neg Bool.false_ne_true, List.nil_append,
        List.getLast?_concat]
      rfl

/-- Following a component from a spelling leads to the spelling of one step more. -/
theorem follow_toPath (h : n.WellFormed) (hc : IsStep c) :
    n.toPath.follow c = (n.step c).toPath := by
  rcases hc with rfl | ⟨x, hx, rfl⟩
  · rcases List.eq_nil_or_concat n.names with hnames | ⟨names, x, hnames⟩
    · rw [follow_up_of_no_names h hnames, step, if_pos hnames]
      cases habs : n.absolute with
      | true => rfl
      | false =>
        have hjoin := Path.join_unsplit h.isPart n.lead_ne_here Path.isPart_up
        rw [parts, hnames, List.append_nil, ← List.replicate_succ'] at hjoin
        rw [if_neg Bool.false_ne_true, if_neg Bool.false_ne_true, toPath_eq, toPath_eq, parts,
          parts, hnames, List.append_nil, hjoin, lead, lead, habs]
        exact congrArg (Path.unsplit _) (List.append_nil _).symm
    · -- The last name is taken off again.
      rw [List.concat_eq_append] at hnames
      have hx : x.IsName := h.names x (by rw [hnames]; simp)
      have hlast : n.toPath.components.getLast? = some (.name x) := by
        rw [components_toPath h, components, hnames, List.map_append, ← List.append_assoc]
        exact List.getLast?_concat
      have hrest : ∀ part ∈ List.replicate n.ups ['.', '.'] ++ names, Path.IsPart part := by
        intro part hpart
        refine h.isPart part ?_
        rw [parts, hnames, ← List.append_assoc]
        exact List.mem_append_left _ hpart
      have hparent := Path.parent?_unsplit hrest n.lead_ne_here ⟨hx.1, hx.2.2⟩
      rw [List.append_assoc, ← hnames] at hparent
      rw [Path.follow, hlast, step, if_neg (by simp [hnames]), hnames, List.dropLast_concat]
      show n.toPath.parent?.getD n.toPath = _
      rw [toPath_eq, parts, hparent]
      rfl
  · have hjoin := Path.join_unsplit h.isPart n.lead_ne_here ⟨hx.1, hx.2.2⟩
    rw [parts, List.append_assoc] at hjoin
    exact hjoin

/-- Following components one after the other leads to the spelling of their evaluation. -/
theorem foldl_follow_toPath (h : n.WellFormed) (hcs : ∀ c ∈ cs, IsStep c) :
    (cs.foldl step n).WellFormed ∧ cs.foldl Path.follow n.toPath = (cs.foldl step n).toPath := by
  induction cs generalizing n with
  | nil => exact ⟨h, rfl⟩
  | cons c cs ih =>
    rw [List.forall_mem_cons] at hcs
    rw [List.foldl_cons, List.foldl_cons, follow_toPath h hcs.1]
    exact ih (h.step hcs.1) hcs.2

end NormalPath

/-! ## Paths spelled anew -/

namespace Path

variable {p q : Path} {c : Component}

/-- All components of a path behind its lead lead on. -/
theorem isStep_of_mem (hc : c ∈ p.steps.filterMap component?) : NormalPath.IsStep c := by
  obtain ⟨part, hpart, hsome⟩ := List.mem_filterMap.1 hc
  have hvoid := not_isVoid_of_mem_steps hpart
  rw [component?, if_neg hvoid] at hsome
  split at hsome
  · exact Or.inl (Option.some.inj hsome).symm
  · rename_i hup
    exact Or.inr ⟨part, ⟨hvoid, hup, slash_notMem_of_mem_steps hpart⟩,
      (Option.some.inj hsome).symm⟩

theorem wellFormed_origin (absolute : Bool) : (⟨absolute, 0, []⟩ : NormalPath).WellFormed :=
  ⟨List.forall_mem_nil _, fun _ => rfl⟩

/-- A path begins at the root or nowhere. -/
theorem foldl_lead {α : Type} {f : α → Component → α} {a : α} (h : f a .here = a) (p : Path) :
    p.split.1.components.foldl f a = if p.isAbsolute then f a .root else a := by
  by_cases habs : p.isAbsolute
  · rw [if_pos habs, isAbsolute_iff_split.1 habs]
    rfl
  · rw [if_neg habs]
    cases hlead : p.split.1 with
    | root => exact absurd (isAbsolute_iff_split.2 hlead) habs
    | here => exact h
    | none => rfl

/-- A path is evaluated step by step from where it begins. -/
theorem normal_eq_foldl (p : Path) :
    p.normal = (p.steps.filterMap component?).foldl NormalPath.step ⟨p.isAbsolute, 0, []⟩ := by
  rw [normal, components_eq, List.foldl_append, foldl_lead rfl]
  cases p.isAbsolute <;> rfl

theorem normalize_eq_foldl (p : Path) : p.normalize =
    (p.steps.filterMap component?).foldl follow (⟨p.isAbsolute, 0, []⟩ : NormalPath).toPath := by
  rw [normalize, components_eq, List.foldl_append, foldl_lead rfl]
  cases p.isAbsolute <;> rfl

theorem wellFormed_normal (p : Path) : p.normal.WellFormed := by
  rw [normal_eq_foldl]
  exact (NormalPath.foldl_follow_toPath (wellFormed_origin _) fun _ => isStep_of_mem).1

/-- Spelling a path anew gives the spelling of its normal form. -/
theorem normalize_eq_toPath (p : Path) : p.normalize = p.normal.toPath := by
  rw [normalize_eq_foldl, normal_eq_foldl]
  exact (NormalPath.foldl_follow_toPath (wellFormed_origin _) fun _ => isStep_of_mem).2

theorem normal_normalize (p : Path) : p.normalize.normal = p.normal := by
  rw [normalize_eq_toPath]
  exact NormalPath.normal_toPath (wellFormed_normal p)

theorem absolute_foldl_step (n : NormalPath) {cs : List Component}
    (hcs : ∀ c ∈ cs, NormalPath.IsStep c) :
    (cs.foldl NormalPath.step n).absolute = n.absolute := by
  induction cs generalizing n with
  | nil => rfl
  | cons c cs ih =>
    rw [List.forall_mem_cons] at hcs
    rw [List.foldl_cons, ih _ hcs.2]
    rcases hcs.1 with rfl | ⟨x, -, rfl⟩
    · rw [NormalPath.step]
      split
      · split <;> rfl
      · rfl
    · rfl

theorem isAbsolute_normalize (p : Path) : p.normalize.isAbsolute = p.isAbsolute := by
  rw [normalize_eq_toPath, NormalPath.isAbsolute_toPath (wellFormed_normal p), normal_eq_foldl]
  exact absolute_foldl_step _ fun _ => isStep_of_mem

/-- A relative path is evaluated from the normal form of what stands in front of it. -/
theorem normal_join_of_relative (hq : ¬q.isAbsolute) :
    (p.join q).normal = (q.steps.filterMap component?).foldl NormalPath.step p.normal := by
  rw [normal_eq_foldl, isAbsolute_join_of_relative hq, steps_join hq, List.filterMap_append,
    List.foldl_append, ← normal_eq_foldl]

/-- In front of another path a path may be replaced by one with the same normal form. -/
theorem normal_join_congr {p' : Path} (h : p.normal = p'.normal) :
    (p.join q).normal = (p'.join q).normal := by
  by_cases hq : q.isAbsolute
  · rw [join, join, if_pos hq, if_pos hq]
  · rw [normal_join_of_relative hq, normal_join_of_relative hq, h]

/-! ## Spellings without detours -/

/-- Whether a path is spelled without detours. -/
structure Straight (p : Path) : Prop where
  /-- No two slashes stand side by side. -/
  single : ¬['/', '/'] <:+: p.text
  /-- Only the root ends with a slash. -/
  trimmed : p.text.getLast? = some '/' → p.text = ['/']
  /-- No component is a dot. -/
  dots : ['.'] ∉ p.text.splitOn '/'
  /-- Steps up stand in front of a relative path, and nowhere else. -/
  ups : ∀ before after, p.components = before ++ .up :: after →
    ¬p.isAbsolute ∧ ∀ c ∈ before, c = .up

theorem straight_toPath {n : NormalPath} (h : n.WellFormed) : n.toPath.Straight where
  single := by
    rintro ⟨a, b, htext⟩
    have hslashes : n.toPath.text = a ++ '/' :: '/' :: b := by simp [← htext]
    rcases text_unsplit_cases h.isPart n.lead_ne_here hslashes with ⟨-, -, hjoin⟩ | ⟨-, hnil⟩
    · exact (nil_notMem_of_join_eq h.isPart (a := []) hjoin.symm).1 List.mem_cons_self
    · exact hnil List.mem_cons_self
  trimmed := by
    intro hlast
    obtain ⟨front, hfront⟩ := List.getLast?_eq_some_iff.1 hlast
    rcases text_unsplit_cases h.isPart n.lead_ne_here hfront with ⟨-, rfl, -⟩ | ⟨-, hnil⟩
    · exact hfront
    · exact absurd List.mem_cons_self hnil
  dots := by
    intro hdot
    rcases mem_splitOn_unsplit h.isPart n.lead_ne_here hdot with hnil | hmem
    · cases hnil
    · exact (h.isPart _ hmem).1 rfl
  ups := by
    intro before after hcomponents
    have hnames : .up ∉ n.names.map Component.name := by simp
    rw [NormalPath.components_toPath h, NormalPath.components] at hcomponents
    rw [NormalPath.isAbsolute_toPath h]
    cases habs : n.absolute with
    | true =>
      refine absurd ?_ hnames
      rw [habs, h.ups habs] at hcomponents
      have hup : .up ∈ Component.root :: n.names.map .name := by
        rw [show Component.root :: n.names.map .name = before ++ .up :: after from hcomponents]
        exact List.mem_append_right before List.mem_cons_self
      exact (List.mem_cons.1 hup).resolve_left nofun
    | false =>
      refine ⟨Bool.false_ne_true, ?_⟩
      rw [habs, if_neg Bool.false_ne_true, List.nil_append] at hcomponents
      rcases List.append_eq_append_iff.1 hcomponents with ⟨more, -, hmore⟩ | ⟨more, hmore, -⟩
      · exact absurd (hmore ▸ List.mem_append_right more List.mem_cons_self) hnames
      · intro c hc
        refine List.eq_of_mem_replicate (n := n.ups) ?_
        rw [hmore]
        exact List.mem_append_left more hc

/-- Paths are spelled anew alike exactly when they have the same normal form. -/
theorem normalize_eq_normalize_iff : p.normalize = q.normalize ↔ p.normal = q.normal := by
  constructor
  · intro h
    rw [← normal_normalize p, h, normal_normalize]
  · intro h
    rw [normalize_eq_toPath, normalize_eq_toPath, h]

/-- A path is spelled anew as absolute as it is, without detours, and once and for all. In
front of another path it may be spelled anew or not. Two paths are spelled alike exactly
when their components, from left to right, evaluate to the same root, steps up and names. -/
theorem normalize_laws :
    (∀ p : Path, p.normalize.isAbsolute = p.isAbsolute ∧ p.normalize.Straight ∧
      p.normalize.normalize = p.normalize) ∧
    (∀ p q : Path, (p.join q).normalize = (p.normalize.join q).normalize) ∧
    ∀ p q : Path, p.normalize = q.normalize ↔ p.normal = q.normal := by
  refine ⟨fun p => ⟨isAbsolute_normalize p, ?_, ?_⟩, fun p q => ?_, fun p q => ?_⟩
  · rw [normalize_eq_toPath]
    exact straight_toPath (wellFormed_normal p)
  · rw [normalize_eq_toPath, normal_normalize, ← normalize_eq_toPath]
  · rw [normalize_eq_toPath, normalize_eq_toPath, normal_join_congr (normal_normalize p).symm]
  · constructor
    · intro h
      rw [← normal_normalize p, h, normal_normalize]
    · intro h
      rw [normalize_eq_toPath, normalize_eq_toPath, h]

example : (ofString "../a//./b/../../../c/").normalize = ofString "../../c" := by cbv

end Path

end Folio
