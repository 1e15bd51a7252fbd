import Mathlib
import Folio.Proofs.Chain.Cycle

/-!
# Shadowing along a chain

Each level of a chain is resolved in the scope that the levels before have built
(`scopeAt`). `build_shadowing` : in the level `k` a name stands for the resolved text of
its section in the last level before `k` that has one, for the global of that name when
there is no such level, and for nothing when there is no such global either. The page is
the anonymous section of the last level alone. The levels are those of a source, or whatever
some way to load gives one after another (`Ascends`).

The scopes grow one level at a time (`get?_scopeAt_succ`), so a binding stays as it is
until a level has a section of its name (`get?_scopeAt_of_no_section`).
-/

namespace Folio

/-- The scope that the level `k` of a chain is resolved in. -/
def scopeAt (globals : Scope) (levels : List Level) (k : Nat) : Scope :=
  scopeAfter globals (levels.take k)

section

variable {globals : Scope} {levels : List Level} {level : Level} {j k : Nat} {x : Text}

theorem scopeAt_zero : scopeAt globals levels 0 = globals := rfl

theorem scopeAt_succ (h : levels[k]? = some level) :
    scopeAt globals levels (k + 1) = level.handOn (scopeAt globals levels k) := by
  rw [scopeAt, List.take_add_one, scopeAfter_append, h]
  rfl

/-- A level hides what it has sections for and leaves the rest. -/
theorem get?_scopeAt_succ (h : levels[k]? = some level) (x : Text) :
    (scopeAt globals levels (k + 1)).get? x =
      match level.section? x with
      | some text => some (resolveText (scopeAt globals levels k) level.path x text).1
      | none => (scopeAt globals levels k).get? x := by
  rw [scopeAt_succ h]
  exact Level.get?_handOn level _ x

/-- Whether no level from `j` up to but not including `k` has a section `x`. -/
def NoSection (levels : List Level) (x : Text) (j k : Nat) : Prop :=
  ∀ i level, j ≤ i → i < k → levels[i]? = some level → level.section? x = none

/-- Levels without a section `x` leave `x` as it is bound. -/
theorem get?_scopeAt_of_no_section (hjk : j ≤ k) (hk : k ≤ levels.length)
    (h : NoSection levels x j k) :
    (scopeAt globals levels k).get? x = (scopeAt globals levels j).get? x := by
  induction hjk with
  | refl => rfl
  | @step k hjk ih =>
    have hlevel : levels[k]? = some levels[k] := List.getElem?_eq_getElem hk
    rw [get?_scopeAt_succ hlevel, h k _ hjk (Nat.lt_succ_self k) hlevel]
    exact ih (Nat.le_of_succ_le hk) fun i level hj hi => h i level hj (Nat.lt_succ_of_lt hi)

/-- The last section of a name is what the name is bound to. -/
theorem get?_scopeAt_of_section {text : Text} (hj : levels[j]? = some level) (hjk : j < k)
    (hk : k ≤ levels.length) (hx : level.section? x = some text)
    (h : NoSection levels x (j + 1) k) :
    (scopeAt globals levels k).get? x =
      some (resolveText (scopeAt globals levels j) level.path x text).1 := by
  rw [get?_scopeAt_of_no_section hjk hk h, get?_scopeAt_succ hj, hx]

/-- A name once bound stays bound. -/
theorem isSome_get?_scopeAt (hjk : j ≤ k) (hk : k ≤ levels.length)
    (h : ((scopeAt globals levels j).get? x).isSome) :
    ((scopeAt globals levels k).get? x).isSome := by
  induction hjk with
  | refl => exact h
  | step hjk ih =>
    rw [get?_scopeAt_succ (List.getElem?_eq_getElem hk)]
    split
    · rfl
    · exact ih (Nat.le_of_succ_le hk)

theorem eq_take_append (h : levels[k]? = some level) :
    levels = levels.take k ++ level :: levels.drop (k + 1) := by
  obtain ⟨hk, rfl⟩ := List.getElem?_eq_some_iff.1 h
  rw [← List.drop_eq_getElem_cons hk, List.take_append_drop]

/-- What is left in place in a section of a level is reported by the walk. -/
theorem mem_complaints (hk : levels[k]? = some level) {name text body : Text}
    {kind : WarningKind} (hname : level.section? name = some text)
    (hbody : .statement body ∈ items text)
    (hsub : substitute (scopeAt globals levels k) body = .error kind) :
    ⟨level.path, name, delimited body, kind⟩ ∈ complaints globals levels := by
  have hleft : (Item.statement body).left? (scopeAt globals levels k) =
      some (delimited body, kind) := by
    simp [Item.left?, hsub]
  have hlevel : ⟨level.path, name, delimited body, kind⟩ ∈
      (level.resolved (scopeAt globals levels k)).warnings := by
    refine mem_warnings_resolve.2 ⟨name, text, hname, ?_⟩
    rw [resolveText_snd]
    exact List.mem_map.2 ⟨_, List.mem_filterMap.2 ⟨_, hbody, hleft⟩, rfl⟩
  rw [eq_take_append hk, complaints_append, complaints]
  exact List.mem_append_right _ (List.mem_append_left _ hlevel)

end

/-- What the statement `body`, a slot for `x` in the section `name` of the level `k`,
gives : text from the last level before `k` with a section `x`, or the global, or the
statement itself with a warning. The sections of the level `k` play no part. -/
structure SlotGives (globals : Scope) (levels : List Level) (k : Nat) (level : Level)
    (name body x : Text) (warnings : List Warning) : Prop where
  nearest : ∀ j below text, j < k → levels[j]? = some below → below.section? x = some text →
    NoSection levels x (j + 1) k →
    (Item.statement body).resolved (scopeAt globals levels k) =
      (resolveText (scopeAt globals levels j) below.path x text).1
  global : NoSection levels x 0 k → ∀ text, globals.get? x = some text →
    (Item.statement body).resolved (scopeAt globals levels k) = text
  missing : NoSection levels x 0 k → globals.get? x = none →
    (Item.statement body).resolved (scopeAt globals levels k) = delimited body ∧
      ⟨level.path, name, delimited body, .missingVariable x⟩ ∈ warnings

theorem slotGives {globals : Scope} {levels : List Level} {k : Nat} {level : Level}
    {name text body x : Text} (hk : levels[k]? = some level)
    (hname : level.section? name = some text) (hbody : .statement body ∈ items text)
    (hx : slot? body = some x) :
    SlotGives globals levels k level name body x (complaints globals levels) := by
  have hlen : k ≤ levels.length := Nat.le_of_lt (List.getElem?_eq_some_iff.1 hk).1
  have hres : (Item.statement body).resolved (scopeAt globals levels k) =
      ((scopeAt globals levels k).get? x).getD (delimited body) := by
    rw [Item.resolved_statement, hx]
  refine ⟨?_, ?_, ?_⟩
  · intro j below t hjk hj ht hno
    rw [hres, get?_scopeAt_of_section hj hjk hlen ht hno]
    rfl
  · intro hno t hg
    rw [hres, get?_scopeAt_of_no_section (Nat.zero_le k) hlen hno, scopeAt_zero, hg]
    rfl
  · intro hno hg
    have hnone : (scopeAt globals levels k).get? x = none := by
      rw [get?_scopeAt_of_no_section (Nat.zero_le k) hlen hno, scopeAt_zero, hg]
    refine ⟨by rw [hres, hnone]; rfl, mem_complaints hk hname hbody ?_⟩
    rw [substitute_of_slot? hx, hnone]

/-- What a page and its warnings owe to the levels of a chain. -/
structure LevelShadowing (globals : Scope) (levels : List Level) (r : Rendered) : Prop where
  warnings : r.warnings = complaints globals levels
  /-- The sections of a level are resolved item by item in its scope. -/
  resolved : ∀ k level name text, levels[k]? = some level → level.section? name = some text →
    (level.resolved (scopeAt globals levels k)).sections.get? name =
      some ((items text).flatMap (Item.resolved (scopeAt globals levels k)))
  /-- The slots among the items are looked up in the levels before. -/
  slots : ∀ k level name text body x, levels[k]? = some level →
    level.section? name = some text → .statement body ∈ items text → slot? body = some x →
    SlotGives globals levels k level name body x r.warnings
  /-- A name once bound stays bound for every ancestor. -/
  bound : ∀ j k x, j ≤ k → k ≤ levels.length → ((scopeAt globals levels j).get? x).isSome →
    ((scopeAt globals levels k).get? x).isSome
  /-- The body of a document that opens no section is its anonymous section. -/
  body : ∀ k level, levels[k]? = some level →
    (∀ i ∈ items level.document.text, i.opened? = none) →
    level.section? anonymous = some (written (kept (items level.document.text))) ∧
      (scopeAt globals levels (k + 1)).get? anonymous =
        some (resolveText (scopeAt globals levels k) level.path anonymous
          (written (kept (items level.document.text)))).1
  /-- The page is made of the last document alone. -/
  page : ∃ below root, levels = below ++ [root] ∧ root.segmented.parent = none ∧
    ∃ text, root.section? anonymous = some text ∧
      r.text = (resolveText (scopeAt globals levels below.length) root.path anonymous text).1

/-- What a build owes to the levels of its chain. -/
structure Shadowing (s : Source) (rules : Rules) (entry : Path) (globals : Scope)
    (r : Rendered) (levels : List Level) : Prop extends LevelShadowing globals levels r where
  climb : s.Climb rules entry levels
  chain : r.chain = levels.map Level.path
  /-- The build comes to each level with its scope. -/
  reached : ∀ k level, levels[k]? = some level → ∃ trail trail',
    s.build rules entry globals = s.buildFrom rules level.path trail (scopeAt globals levels k)
        (complaints globals (levels.take k)) ∧
      s.load level.path trail = .ok (level.document, trail')

/-- Whether `levels` are loaded one after another from `p` on, up to a document without a
parent, and `last` is the trail then. -/
def Ascends (load : Loader) (rules : Rules) : Path → Trail → List Level → Trail → Prop
  | _, _, [], _ => False
  | p, trail, level :: rest, last => ∃ trail',
    load p trail = .ok (level.document, trail') ∧
      segment rules level.document = .ok level.segmented ∧
      match level.segmented.parent with
      | none => rest = [] ∧ last = trail'
      | some parent => Ascends load rules parent trail' rest last

/-- What a build owes to the levels of its chain, for any way to load. -/
structure LoadedShadowing (load : Loader) (rules : Rules) (entry : Path) (globals : Scope)
    (n : Nat) (r : Rendered) (levels : List Level) : Prop
    extends LevelShadowing globals levels r where
  ascends : ∃ last, Ascends load rules entry .empty levels last ∧ r.chain = last.chain
  /-- The build comes to each level with its scope. -/
  reached : ∀ k level, levels[k]? = some level → ∃ m p trail trail',
    buildWithin load rules n entry .empty globals [] =
        buildWithin load rules m p trail (scopeAt globals levels k)
          (complaints globals (levels.take k)) ∧
      load p trail = .ok (level.document, trail')

section

variable {load : Loader} {rules : Rules}

/-- Every level is split by the rules. -/
theorem Ascends.segment_eq : ∀ {levels : List Level} {p : Path} {trail last : Trail},
    Ascends load rules p trail levels last →
    ∀ level ∈ levels, segment rules level.document = .ok level.segmented
  | first :: rest, p, trail, last, ⟨_, _, hs, hrest⟩, level, hmem => by
    rcases List.mem_cons.1 hmem with rfl | hmem
    · exact hs
    · cases hp : first.segmented.parent with
      | none =>
        simp only [hp] at hrest
        simp [hrest.1] at hmem
      | some parent =>
        simp only [hp] at hrest
        exact hrest.segment_eq level hmem

/-- The last level has no parent. -/
theorem Ascends.exists_root : ∀ {levels : List Level} {p : Path} {trail last : Trail},
    Ascends load rules p trail levels last →
    ∃ below root, levels = below ++ [root] ∧ root.segmented.parent = none
  | level :: rest, p, trail, last, ⟨_, _, _, hrest⟩ => by
    cases hp : level.segmented.parent with
    | none =>
      simp only [hp] at hrest
      exact ⟨[], level, by rw [hrest.1, List.nil_append], hp⟩
    | some parent =>
      simp only [hp] at hrest
      obtain ⟨below, root, rfl, hroot⟩ := hrest.exists_root
      exact ⟨level :: below, root, rfl, hroot⟩

/-- A walk that ends well ascends its levels. -/
theorem ascends_of_walkWithin : ∀ {n : Nat} {p : Path} {trail last : Trail} {walk : Walk},
    walkWithin load rules n p trail = some walk → walk.ending = .ok last →
    Ascends load rules p trail walk.levels last
  | 0, _, _, _, _, h, _ => by cases h
  | n + 1, p, trail, last, walk, h, hlast => by
    rw [walkWithin] at h
    split at h
    · cases h
      cases hlast
    · rename_i level trail' henter
      obtain ⟨hload, hs⟩ := load_of_enter henter
      split at h
      · rename_i hp
        cases h
        cases hlast
        exact ⟨_, hload, hs, by rw [hp]; exact ⟨rfl, rfl⟩⟩
      · rename_i parent hp
        obtain ⟨rest, hrest, rfl⟩ := Option.map_eq_some_iff.1 h
        exact ⟨trail', hload, hs, by rw [hp]; exact ascends_of_walkWithin hrest hlast⟩

/-- A walk comes to each of its levels with the scope after the levels before, and goes on
from there. -/
theorem buildWithin_scopeAfter {level : Level} {above : List Level} :
    ∀ {below : List Level} {n : Nat} {p : Path} {trail : Trail} {walk : Walk} (scope : Scope)
      (warnings : List Warning), walkWithin load rules n p trail = some walk →
      walk.levels = below ++ level :: above →
      ∃ m q trail' trail'', buildWithin load rules n p trail scope warnings =
          buildWithin load rules m q trail' (scopeAfter scope below)
            (warnings ++ complaints scope below) ∧
        load q trail' = .ok (level.document, trail'')
  | below, 0, _, _, _, _, _, h, _ => by cases h
  | below, n + 1, p, trail, walk, scope, warnings, h, hlevels => by
    rw [walkWithin] at h
    split at h
    · cases h
      simp at hlevels
    · rename_i first trail' henter
      obtain ⟨hload, hs⟩ := load_of_enter henter
      cases below with
      | nil =>
        have hfirst : first = level := by
          split at h
          · cases h
            exact (List.cons.inj hlevels).1
          · obtain ⟨rest, -, rfl⟩ := Option.map_eq_some_iff.1 h
            exact (List.cons.inj hlevels).1
        rw [hfirst] at hload
        exact ⟨n + 1, p, trail, trail', by simp [scopeAfter, complaints], hload⟩
      | cons b below =>
        split at h
        · cases h
          simp at hlevels
        · rename_i parent hp
          obtain ⟨rest, hrest, rfl⟩ := Option.map_eq_some_iff.1 h
          obtain ⟨rfl, hrestLevels⟩ := List.cons.inj hlevels
          obtain ⟨m, q, t, t', hbuild, hq⟩ := buildWithin_scopeAfter (first.handOn scope)
            (warnings ++ (first.resolved scope).warnings) hrest hrestLevels
          refine ⟨m, q, t, t', ?_, hq⟩
          rw [List.append_assoc] at hbuild
          rw [buildWithin, hload]
          simp only [hs, hp]
          exact hbuild

/-- Levels shadow names if the rules split them and the last one has no parent. -/
theorem levelShadowing {globals : Scope} {levels : List Level} {r : Rendered}
    (hsegment : ∀ level ∈ levels, segment rules level.document = .ok level.segmented)
    (hroot : ∃ below root, levels = below ++ [root] ∧ root.segmented.parent = none)
    (htext : r.text = page globals levels) (hwarnings : r.warnings = complaints globals levels) :
    LevelShadowing globals levels r := by
  refine ⟨hwarnings, ?_, ?_, fun j k x hjk hk => isSome_get?_scopeAt hjk hk, ?_, ?_⟩
  · intro k level name text hk hname
    rw [Level.resolved, get?_resolve, ← Level.section?, hname, Option.map_some, resolveText_fst]
  · intro k level name text body x hk hname hbody hx
    rw [hwarnings]
    exact slotGives hk hname hbody hx
  · intro k level hk hplain
    have hs := hsegment level (List.mem_of_getElem? hk)
    have hbody : level.section? anonymous = _ := get?_anonymous hs (Or.inr hplain)
    exact ⟨hbody, by rw [get?_scopeAt_succ hk, hbody]⟩
  · obtain ⟨below, root, hlevels, hparent⟩ := hroot
    have hs := hsegment root (by rw [hlevels]; simp)
    have hsection : root.section? anonymous = _ := get?_anonymous hs (Or.inl hparent)
    refine ⟨below, root, hlevels, hparent, _, hsection, ?_⟩
    rw [htext, hlevels, scopeAt, List.take_left, page_append, Level.resolved, get?_resolve,
      ← Level.section?, hsection]
    rfl

end

/-- Every build that succeeds shadows names along its chain, over every source, and for every
way to load after every number of loads. -/
theorem build_shadowing (rules : Rules) (entry : Path) (globals : Scope) :
    (∀ (s : Source) (r : Rendered), s.build rules entry globals = .ok r →
      ∃ levels, Shadowing s rules entry globals r levels) ∧
    ∀ (load : Loader) (n : Nat) (r : Rendered),
      buildWithin load rules n entry .empty globals [] = some (.ok r) →
      ∃ levels, LoadedShadowing load rules entry globals n r levels := by
  refine ⟨fun s r h => ?_, fun load n r h => ?_⟩
  · have hwalk : walkWithin s.load rules (s.unseen .empty + 1) entry .empty =
        some (s.walk rules entry) := Source.walkWithin_load (Nat.lt_succ_self _)
    have hrendered := h
    rw [Source.build_eq] at hrendered
    obtain ⟨last, hlast⟩ := Walk.exists_ending_of_rendered hrendered
    have hascends := ascends_of_walkWithin hwalk hlast
    obtain ⟨hclimb, rfl⟩ := Source.climb_of_build_eq_ok h
    refine ⟨(s.walk rules entry).levels,
      levelShadowing hascends.segment_eq hascends.exists_root rfl rfl, hclimb, rfl, ?_⟩
    intro k level hk
    obtain ⟨trail, hrun, hlevels⟩ := Source.buildFrom_scopeAfter globals [] (eq_take_append hk)
    obtain ⟨trail', henter⟩ := Source.enter_of_levels_eq hlevels
    exact ⟨trail, trail', hrun, (load_of_enter henter).1⟩
  · have hbuild := h
    rw [buildWithin_eq] at hbuild
    obtain ⟨walk, hwalk, hrendered⟩ := Option.map_eq_some_iff.1 hbuild
    obtain ⟨last, hlast⟩ := Walk.exists_ending_of_rendered hrendered
    rw [Walk.rendered, hlast] at hrendered
    obtain rfl := Except.ok.inj hrendered
    have hascends := ascends_of_walkWithin hwalk hlast
    refine ⟨walk.levels, levelShadowing hascends.segment_eq hascends.exists_root rfl rfl,
      ⟨last, hascends, rfl⟩, fun k level hk => ?_⟩
    exact buildWithin_scopeAfter globals [] hwalk (eq_take_append hk)

/-- A document, its parent that wraps the section `x`, and the parent of that. -/
def wrapped : Shelf :=
  ((Shelf.empty.insert ⟨['a']⟩ "$<inherit b>$$<fill x>$$<slot g>$!".toList).insert
    ⟨['b']⟩ "$<inherit c>$$<fill x>$($<slot x>$)".toList).insert
    ⟨['c']⟩ "$<slot x>$ $<slot g>$ $<slot y>$".toList

theorem build_shadowing_wrapped :
    wrapped.source.build ⟨⟨[]⟩, false⟩ ⟨['a']⟩ (Dict.ofList [(['g'], ['G'])]) =
        .ok ⟨"(G!) G $<slot y>$".toList, [⟨['a']⟩, ⟨['b']⟩, ⟨['c']⟩],
          [⟨⟨['c']⟩, anonymous, "$<slot y>$".toList, .missingVariable ['y']⟩]⟩ ∧
      ∃ levels, Shadowing wrapped.source ⟨⟨[]⟩, false⟩ ⟨['a']⟩ (Dict.ofList [(['g'], ['G'])])
        ⟨"(G!) G $<slot y>$".toList, [⟨['a']⟩, ⟨['b']⟩, ⟨['c']⟩],
          [⟨⟨['c']⟩, anonymous, "$<slot y>$".toList, .missingVariable ['y']⟩]⟩ levels := by
  have h : wrapped.source.build ⟨⟨[]⟩, false⟩ ⟨['a']⟩ (Dict.ofList [(['g'], ['G'])]) =
      .ok ⟨"(G!) G $<slot y>$".toList, [⟨['a']⟩, ⟨['b']⟩, ⟨['c']⟩],
        [⟨⟨['c']⟩, anonymous, "$<slot y>$".toList, .missingVariable ['y']⟩]⟩ := by cbv
  exact ⟨h, (build_shadowing _ _ _).1 _ _ h⟩

end Folio
