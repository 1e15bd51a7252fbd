import Folio.Proofs.Statement.Items
import Folio.Template.Resolve

/-!
# Resolution, item by item

Each item of a text is resolved by itself : a loose character stays, a statement is
replaced or left in place (`resolveItems_eq`). A statement is replaced exactly when it
is a slot and its name is bound (`substitute_eq_ok_iff`), and any other statement is
left in place for the same reason in every scope (`substitute_of_slot?_eq_none`).
-/

namespace Folio

/-- The name that a statement asks for, when it is a slot with one argument. -/
def slot? (body : Text) : Option Text :=
  match splitWords body with
  | [command, name] => if command = slotCommand then some name else none
  | _ => none

theorem slot?_eq_some_iff {body name : Text} :
    slot? body = some name ↔ splitWords body = [slotCommand, name] := by
  unfold slot?
  split
  · rename_i command x hw
    rw [hw]
    by_cases hc : command = slotCommand <;> simp [hc]
  · rename_i hw
    constructor
    · intro h
      cases h
    · intro h
      exact absurd h (hw _ _)

/-- A slot is replaced by what its name is bound to. -/
theorem substitute_of_slot? {body name : Text} (h : slot? body = some name) (scope : Scope) :
    substitute scope body =
      match scope.get? name with
      | some text => .ok text
      | none => .error (.missingVariable name) := by
  unfold substitute
  rw [slot?_eq_some_iff.1 h]
  cases hg : scope.get? name <;> simp [hg]

/-- A statement that is no slot is left in place, for a reason of its own. -/
theorem substitute_of_slot?_eq_none {body : Text} (h : slot? body = none) :
    ∃ kind, ∀ scope, substitute scope body = .error kind := by
  unfold substitute
  unfold slot? at h
  split
  · exact ⟨_, fun _ => rfl⟩
  · rename_i command args hw
    by_cases hc : command = slotCommand
    · simp only [if_pos hc]
      split
      · rename_i name
        rw [hw] at h
        simp [hc] at h
      · exact ⟨_, fun _ => rfl⟩
    · exact ⟨_, fun _ => by rw [if_neg hc]⟩

theorem substitute_eq_ok_iff {scope : Scope} {body text : Text} :
    substitute scope body = .ok text ↔
      ∃ name, slot? body = some name ∧ scope.get? name = some text := by
  cases hs : slot? body with
  | none =>
    obtain ⟨kind, hk⟩ := substitute_of_slot?_eq_none hs
    simp [hk scope]
  | some name =>
    rw [substitute_of_slot? hs]
    cases hg : scope.get? name <;> simp [hg]

/-! ## The two results for one item -/

/-- What stands in the resolved text in place of an item. -/
def Item.resolved (scope : Scope) : Item → Text
  | .char c => [c]
  | .statement body =>
    match substitute scope body with
    | .ok text => text
    | .error _ => delimited body

/-- A slot stands for what its name is bound to, any other statement for itself. -/
theorem Item.resolved_statement (scope : Scope) (body : Text) :
    (Item.statement body).resolved scope =
      match slot? body with
      | some name => (scope.get? name).getD (delimited body)
      | none => delimited body := by
  show (match substitute scope body with
    | .ok text => text
    | .error _ => delimited body) = _
  cases hs : slot? body with
  | none =>
    obtain ⟨kind, hk⟩ := substitute_of_slot?_eq_none hs
    rw [hk]
  | some name =>
    rw [substitute_of_slot? hs]
    cases hg : scope.get? name <;> simp [hg]

/-- The statement that an item leaves in place, with the reason. -/
def Item.left? (scope : Scope) : Item → Option (Text × WarningKind)
  | .char _ => none
  | .statement body =>
    match substitute scope body with
    | .ok _ => none
    | .error kind => some (delimited body, kind)

/-- A text is resolved item by item. -/
theorem resolveItems_eq (scope : Scope) : ∀ l : List Item,
    resolveItems scope l = (l.flatMap (Item.resolved scope), l.filterMap (Item.left? scope))
  | [] => rfl
  | .char c :: rest => by
    rw [resolveItems, resolveItems_eq scope rest]
    rfl
  | .statement body :: rest => by
    rw [resolveItems, resolveItems_eq scope rest]
    cases hs : substitute scope body <;> simp [Item.resolved, Item.left?, hs]

theorem resolveText_fst (scope : Scope) (file : Path) (sectionName text : Text) :
    (resolveText scope file sectionName text).1 = (items text).flatMap (Item.resolved scope) := by
  rw [resolveText, resolveItems_eq]

theorem resolveText_snd (scope : Scope) (file : Path) (sectionName text : Text) :
    (resolveText scope file sectionName text).2 =
      ((items text).filterMap (Item.left? scope)).map
        fun left => ⟨file, sectionName, left.1, left.2⟩ := by
  rw [resolveText, resolveItems_eq]

theorem sectionName_of_mem {scope : Scope} {file : Path} {sectionName text : Text} {w : Warning}
    (h : w ∈ (resolveText scope file sectionName text).2) : w.sectionName = sectionName := by
  rw [resolveText_snd] at h
  obtain ⟨left, -, rfl⟩ := List.mem_map.1 h
  rfl

theorem get?_resolve (scope : Scope) (file : Path) (sections : Dict Text) (name : Text) :
    (resolve scope file sections).sections.get? name =
      (sections.get? name).map fun text => (resolveText scope file name text).1 := by
  rw [resolve, Dict.get?_map]

/-- The warnings about one section are those of its text. -/
theorem filter_warnings_resolve (scope : Scope) (file : Path) {sections : Dict Text}
    {name text : Text} (h : sections.get? name = some text) :
    (resolve scope file sections).warnings.filter (·.sectionName = name) =
      (resolveText scope file name text).2 := by
  have hone : ∀ n t, (resolveText scope file n t).2.filter (·.sectionName = name) =
      if n = name then (resolveText scope file n t).2 else [] := by
    intro n t
    by_cases hn : n = name
    · rw [if_pos hn, List.filter_eq_self]
      intro w hw
      simp [sectionName_of_mem hw, hn]
    · rw [if_neg hn, List.filter_eq_nil_iff]
      intro w hw
      simp [sectionName_of_mem hw, hn]
  rw [resolve, List.filter_flatMap]
  simp only [hone]
  have hmem : (name, text) ∈ sections.toList := Dict.get?_eq_some_iff.1 h
  have hpair := sections.pairwise_ne
  generalize sections.toList = l at hmem hpair
  -- beside `name` itself every section has another name
  induction l with
  | nil => cases hmem
  | cons e rest ih =>
    obtain ⟨n, t⟩ := e
    rw [List.pairwise_cons] at hpair
    rw [List.flatMap_cons]
    rcases List.mem_cons.1 hmem with he | hrest
    · obtain ⟨rfl, rfl⟩ := Prod.mk.inj he
      have hnil : rest.flatMap (fun e => if e.1 = name then (resolveText scope file e.1 e.2).2
          else []) = [] :=
        List.flatMap_eq_nil_iff.2 fun e he => if_neg (Ne.symm (hpair.1 e he))
      rw [if_pos rfl, hnil, List.append_nil]
    · rw [if_neg (hpair.1 _ hrest), List.nil_append, ih hrest hpair.2]

/-- The warnings of a resolution, section by section. -/
theorem mem_warnings_resolve {scope : Scope} {file : Path} {sections : Dict Text} {w : Warning} :
    w ∈ (resolve scope file sections).warnings ↔
      ∃ name text, sections.get? name = some text ∧ w ∈ (resolveText scope file name text).2 := by
  rw [resolve, List.mem_flatMap]
  constructor
  · rintro ⟨⟨name, text⟩, hs, hw⟩
    exact ⟨name, text, Dict.get?_eq_some_iff.2 hs, hw⟩
  · rintro ⟨name, text, hs, hw⟩
    exact ⟨(name, text), Dict.get?_eq_some_iff.1 hs, hw⟩

end Folio
