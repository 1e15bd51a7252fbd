import Folio.Proofs.Chain.Levels

/-!
# The guard against cycles

A walk stops when it meets an identity again. `cycle_guard_exact` : a walk that goes on
without this guard (`Source.loadAgain`) never ends if and only if the guarded walk
reports a cycle, and every other result is the one it would have had without the guard.

`walkWithin` is a walk that is cut off after a number of loads. With the guard, one
load more than there are documents is always enough (`Source.walkWithin_load`). Without
it, a walk that comes back to an identity goes round for ever : the documents met so far
have all their parents among themselves (`Source.ParentsMet.endless`).
-/

namespace Folio

/-! ## Walks that are cut off -/

/-- The chain of a walk with `load` as its way to load; `none` when it has not ended
after so many loads. -/
def chainWithin (load : Loader) (rules : Rules) :
    Nat → Path → Trail → Option (Except ChainError (List Path))
  | 0, _, _ => none
  | n + 1, p, trail =>
    match load p trail with
    | .error e => some (.error e)
    | .ok (doc, trail') =>
      match segment rules doc with
      | .error e => some (.error (.segment e))
      | .ok segmented =>
        match segmented.parent with
        | none => some (.ok trail'.chain)
        | some parent => chainWithin load rules n parent trail'

/-- The page of a walk with `load` as its way to load; `none` when it has not ended
after so many loads. -/
def buildWithin (load : Loader) (rules : Rules) :
    Nat → Path → Trail → Scope → List Warning → Option (Except ChainError Rendered)
  | 0, _, _, _, _ => none
  | n + 1, p, trail, scope, warnings =>
    match load p trail with
    | .error e => some (.error e)
    | .ok (doc, trail') =>
      match segment rules doc with
      | .error e => some (.error (.segment e))
      | .ok segmented =>
        let resolved := resolve scope doc.path segmented.sections
        let warnings' := warnings ++ resolved.warnings
        match segmented.parent with
        | none =>
          some (.ok ⟨(resolved.sections.get? anonymous).getD [], trail'.chain, warnings'⟩)
        | some parent =>
          buildWithin load rules n parent trail' (scope.extend resolved.sections.toList) warnings'

/-- The levels of a walk with `load` as its way to load; `none` when it has not ended
after so many loads. -/
def walkWithin (load : Loader) (rules : Rules) : Nat → Path → Trail → Option Walk
  | 0, _, _ => none
  | n + 1, p, trail =>
    match enter load rules p trail with
    | .error e => some ⟨[], .error e⟩
    | .ok (level, trail') =>
      match level.segmented.parent with
      | none => some ⟨[level], .ok trail'⟩
      | some parent => (walkWithin load rules n parent trail').map (Walk.cons level)

section

variable {load : Loader} {rules : Rules}

/-- More loads do not change a walk that has ended. -/
theorem walkWithin_add : ∀ {n : Nat} {p : Path} {trail : Trail} {walk : Walk},
    walkWithin load rules n p trail = some walk →
    ∀ k, walkWithin load rules (n + k) p trail = some walk
  | 0, _, _, _, h, _ => by cases h
  | n + 1, p, trail, walk, h, k => by
    have hn : n + 1 + k = n + k + 1 := by omega
    rw [hn, walkWithin]
    rw [walkWithin] at h
    split at h
    · exact h
    · split at h
      · exact h
      · obtain ⟨rest, hrest, rfl⟩ := Option.map_eq_some_iff.1 h
        rw [walkWithin_add hrest k, Option.map_some]

theorem walkWithin_unique {n m : Nat} {p : Path} {trail : Trail} {walk other : Walk}
    (hn : walkWithin load rules n p trail = some walk)
    (hm : walkWithin load rules m p trail = some other) : walk = other := by
  have h := walkWithin_add hn m
  rw [Nat.add_comm, walkWithin_add hm n] at h
  exact (Option.some.inj h).symm

theorem walkWithin_ne_nil {n : Nat} {p : Path} {trail last : Trail} {walk : Walk}
    (h : walkWithin load rules n p trail = some walk) (hw : walk.ending = .ok last) :
    walk.levels ≠ [] := by
  cases n with
  | zero => cases h
  | succ n =>
    rw [walkWithin] at h
    split at h
    · cases h
      cases hw
    · split at h
      · cases h
        simp
      · obtain ⟨rest, -, rfl⟩ := Option.map_eq_some_iff.1 h
        simp

theorem chainWithin_eq : ∀ (n : Nat) (p : Path) (trail : Trail),
    chainWithin load rules n p trail = (walkWithin load rules n p trail).map Walk.listed
  | 0, _, _ => rfl
  | n + 1, p, trail => by
    rw [chainWithin, walkWithin, enter]
    cases hl : load p trail with
    | error e => rfl
    | ok loaded =>
      obtain ⟨doc, trail'⟩ := loaded
      cases hs : segment rules doc with
      | error e => simp [hs, Walk.listed, Except.map]
      | ok segmented =>
        cases hp : segmented.parent with
        | none => simp [hs, hp, Walk.listed, Except.map]
        | some parent =>
          simp only [hs, hp, chainWithin_eq n, Option.map_map]
          rfl

theorem buildWithin_eq : ∀ (n : Nat) (p : Path) (trail : Trail) (scope : Scope)
    (warnings : List Warning),
    buildWithin load rules n p trail scope warnings =
      (walkWithin load rules n p trail).map fun walk => walk.rendered scope warnings
  | 0, _, _, _, _ => rfl
  | n + 1, p, trail, scope, warnings => by
    rw [buildWithin, walkWithin, enter]
    cases hl : load p trail with
    | error e => rfl
    | ok loaded =>
      obtain ⟨doc, trail'⟩ := loaded
      cases hs : segment rules doc with
      | error e => simp [hs, Walk.rendered, Except.map]
      | ok segmented =>
        cases hp : segmented.parent with
        | none =>
          simp [hs, hp, Walk.rendered, Except.map, page, complaints, Level.resolved, Level.path]
        | some parent =>
          simp only [hs, hp, buildWithin_eq n, Option.map_map]
          cases hw : walkWithin load rules n parent trail' with
          | none => rfl
          | some walk =>
            have hcons := Walk.rendered_cons (fun last => walkWithin_ne_nil hw)
              ⟨doc, segmented⟩ scope warnings
            exact congrArg some hcons.symm

end

namespace Source

variable {s : Source} {rules : Rules}

/-- One load more than there are documents that the walk has not met is enough. -/
theorem walkWithin_load : ∀ {n : Nat} {p : Path} {trail : Trail}, s.unseen trail < n →
    walkWithin s.load rules n p trail = some (s.walkFrom rules p trail)
  | 0, _, _, h => absurd h (Nat.not_lt_zero _)
  | n + 1, p, trail, h => by
    rw [walkWithin, walkFrom_enter]
    cases he : enter s.load rules p trail with
    | error e => rfl
    | ok entered =>
      obtain ⟨level, trail'⟩ := entered
      cases hp : level.segmented.parent with
      | none => simp [hp]
      | some parent =>
        have hlt : s.unseen trail' < n := by
          have := unseen_enter_lt he
          omega
        simp only [hp, walkWithin_load hlt, Option.map_some]

/-! ## Walks without the guard -/

/-- Reads the document at `p`, whether the walk has met it before or not. -/
def loadAgain (s : Source) : Loader := fun p trail =>
  match s.read p with
  | .error reason => .error (.unreadable p reason)
  | .ok text => .ok (⟨p, text⟩, trail.push p (s.identity p))

/-- The path of the parent of the document at `p`, when the document can be read and
split and names one. -/
def parentOf? (s : Source) (rules : Rules) (p : Path) : Option Path :=
  match s.read p with
  | .error _ => none
  | .ok text =>
    match segment rules ⟨p, text⟩ with
    | .error _ => none
    | .ok segmented => segmented.parent

/-- The path after `n` steps from a document to its parent. -/
def ancestor? (s : Source) (rules : Rules) : Nat → Path → Option Path
  | 0, p => some p
  | n + 1, p => (s.parentOf? rules p).bind (s.ancestor? rules n)

/-- Whether every document on the way up from `entry` can be read and split and has a
parent. -/
def Endless (s : Source) (rules : Rules) (entry : Path) : Prop :=
  ∀ n, (s.ancestor? rules n entry).isSome

theorem enter_loadAgain {p : Path} {trail : Trail} (h : s.identity p ∉ trail.seen) :
    enter s.loadAgain rules p trail = enter s.load rules p trail := by
  have hl : s.load p trail = s.loadAgain p trail := if_neg h
  rw [enter, enter, hl]

theorem parentOf?_eq (p : Path) (trail : Trail) :
    s.parentOf? rules p =
      match enter s.loadAgain rules p trail with
      | .error _ => none
      | .ok (level, _) => level.segmented.parent := by
  rw [parentOf?, enter, loadAgain]
  cases s.read p with
  | error reason => rfl
  | ok text => cases hs : segment rules ⟨p, text⟩ <;> simp [hs]

theorem parentOf?_of_enter {p : Path} {trail trail' : Trail} {level : Level}
    (h : enter s.load rules p trail = .ok (level, trail')) :
    s.parentOf? rules p = level.segmented.parent := by
  rw [parentOf?_eq p trail, enter_loadAgain (enter_eq_ok h).2.2.2.1, h]

/-- Without the guard, a walk that has not ended after `n` loads stands at the path after
`n` steps. -/
theorem walkWithin_loadAgain_eq_none_iff : ∀ {n : Nat} {p : Path} {trail : Trail},
    walkWithin s.loadAgain rules n p trail = none ↔ (s.ancestor? rules n p).isSome
  | 0, _, _ => by simp [walkWithin, ancestor?]
  | n + 1, p, trail => by
    rw [walkWithin, ancestor?, parentOf?_eq p trail]
    cases he : enter s.loadAgain rules p trail with
    | error e => simp
    | ok entered =>
      obtain ⟨level, trail'⟩ := entered
      cases hp : level.segmented.parent with
      | none => simp [hp]
      | some parent => simp [hp, walkWithin_loadAgain_eq_none_iff (n := n)]

/-! ## Cycles -/

theorem mem_seen_iff (rules : Rules) {p : Path} {trail : Trail} :
    s.identity p ∈ trail.seen ↔ ∃ q c, enter s.load rules p trail = .error (.cycle q c) := by
  constructor
  · intro h
    have hl : s.load p trail = .error (.cycle p trail.chain) := if_pos h
    exact ⟨p, trail.chain, by rw [enter, hl]⟩
  · rintro ⟨q, c, h⟩
    refine Classical.byContradiction fun hseen => ?_
    rw [← enter_loadAgain hseen, enter, loadAgain] at h
    cases hr : s.read p with
    | error reason => simp [hr] at h
    | ok text => cases hs : segment rules ⟨p, text⟩ <;> simp [hr, hs] at h

/-- Without a cycle, the guard changes nothing. -/
theorem exists_walkWithin_loadAgain {p : Path} {trail : Trail}
    (h : ∀ q c, (s.walkFrom rules p trail).ending ≠ .error (.cycle q c)) :
    ∃ n, walkWithin s.loadAgain rules n p trail = some (s.walkFrom rules p trail) := by
  fun_induction walkFrom s rules p trail with
  | case1 p trail e he =>
    have hseen : s.identity p ∉ trail.seen := by
      intro hmem
      obtain ⟨q, c, hc⟩ := (mem_seen_iff rules).1 hmem
      rw [he] at hc
      exact h q c (congrArg Except.error (Except.error.inj hc))
    exact ⟨1, by rw [walkWithin, enter_loadAgain hseen, he]⟩
  | case2 p trail level trail' he hp =>
    have hseen := (enter_eq_ok he).2.2.2.1
    exact ⟨1, by rw [walkWithin, enter_loadAgain hseen, he]; simp [hp]⟩
  | case3 p trail level trail' he parent hp ih =>
    have hseen := (enter_eq_ok he).2.2.2.1
    obtain ⟨n, hn⟩ := ih h
    exact ⟨n + 1, by rw [walkWithin, enter_loadAgain hseen, he]; simp [hp, hn]⟩

/-- A set of identities whose documents all have a parent in the set is never left. -/
theorem isSome_ancestor?_of_closed {S : NormalPath → Prop}
    (hS : ∀ q, S (s.identity q) → ∃ q', s.parentOf? rules q = some q' ∧ S (s.identity q')) :
    ∀ {n : Nat} {q : Path}, S (s.identity q) → (s.ancestor? rules n q).isSome
  | 0, _, _ => rfl
  | n + 1, q, hq => by
    obtain ⟨q', hparent, hq'⟩ := hS q hq
    rw [ancestor?, hparent]
    exact isSome_ancestor?_of_closed hS hq'

/-- Whether each document met so far has its parent at `p` or among those met. -/
def ParentsMet (s : Source) (rules : Rules) (p : Path) (trail : Trail) : Prop :=
  ∀ q, s.identity q ∈ trail.seen → ∃ q', s.parentOf? rules q = some q' ∧
    (s.identity q' = s.identity p ∨ s.identity q' ∈ trail.seen)

theorem parentsMet_empty (p : Path) : s.ParentsMet rules p .empty :=
  fun _ hq => absurd hq List.not_mem_nil

/-- A step of a walk goes on to the parent of the document that it meets. -/
theorem ParentsMet.push {p parent : Path} {trail : Trail} (h : s.ParentsMet rules p trail)
    (hid : ∀ p q, s.identity p = s.identity q → s.parentOf? rules p = s.parentOf? rules q)
    (hp : s.parentOf? rules p = some parent) :
    s.ParentsMet rules parent (trail.push p (s.identity p)) := by
  intro q hq
  rcases List.mem_cons.1 hq with heq | hmem
  · exact ⟨parent, (hid q p heq).trans hp, Or.inl rfl⟩
  · obtain ⟨q', hparent, hq'⟩ := h q hmem
    refine ⟨q', hparent, Or.inr ?_⟩
    rcases hq' with heq | hmem'
    · exact heq ▸ List.mem_cons_self
    · exact List.mem_cons_of_mem _ hmem'

/-- Back at a document it has met, a walk without the guard goes on for ever. -/
theorem ParentsMet.endless {p : Path} {trail : Trail} (h : s.ParentsMet rules p trail)
    (hp : s.identity p ∈ trail.seen) : s.Endless rules p := by
  intro n
  refine isSome_ancestor?_of_closed (S := (· ∈ trail.seen)) (fun q hq => ?_) hp
  obtain ⟨q', hparent, hq'⟩ := h q hq
  refine ⟨q', hparent, ?_⟩
  rcases hq' with heq | hmem
  · rw [heq]
    exact hp
  · exact hmem

theorem endless_of_parentOf? {p parent : Path} (hp : s.parentOf? rules p = some parent)
    (h : s.Endless rules parent) : s.Endless rules p
  | 0 => rfl
  | n + 1 => by
    rw [ancestor?, hp]
    exact h n

/-- A walk that reports a cycle would never end without the guard. -/
theorem endless_of_cycle
    (hid : ∀ p q, s.identity p = s.identity q → s.parentOf? rules p = s.parentOf? rules q)
    {p : Path} {trail : Trail} (hmet : s.ParentsMet rules p trail) {q : Path} {c : List Path}
    (h : (s.walkFrom rules p trail).ending = .error (.cycle q c)) : s.Endless rules p := by
  fun_induction walkFrom s rules p trail with
  | case1 p trail e he =>
    obtain rfl : e = .cycle q c := Except.error.inj h
    exact hmet.endless ((mem_seen_iff rules).2 ⟨q, c, he⟩)
  | case2 => cases h
  | case3 p trail level trail' he parent hp ih =>
    have hparent : s.parentOf? rules p = some parent := (parentOf?_of_enter he).trans hp
    obtain ⟨-, -, -, -, rfl⟩ := enter_eq_ok he
    exact endless_of_parentOf? hparent (ih (hmet.push hid hparent) h)

/-! ## Chains and their guard -/

/-- Whether the paths of a chain follow one another : each document can be read and
split, the next path is the root joined with the parent that the document names, and the
last document names none. -/
def Leads (s : Source) (rules : Rules) : List Path → Prop
  | [] => False
  | p :: rest =>
    ∃ text segmented, s.read p = .ok text ∧ segment rules ⟨p, text⟩ = .ok segmented ∧
      match (items text).findSome? Item.target? with
      | none => rest = []
      | some target => rest.head? = some (rules.root.join ⟨target⟩) ∧ Leads s rules rest

theorem Climb.head?_map_path {p : Path} : ∀ {levels : List Level}, s.Climb rules p levels →
    (levels.map Level.path).head? = some p
  | _ :: _, h => congrArg some h.1

theorem Climb.leads : ∀ {levels : List Level} {p : Path}, s.Climb rules p levels →
    s.Leads rules (levels.map Level.path)
  | level :: rest, p, ⟨hp, hread, hs, hrest⟩ => by
    subst hp
    refine ⟨_, _, hread, hs, ?_⟩
    rw [segment_parent hs] at hrest
    cases ht : (items level.document.text).findSome? Item.target? with
    | none =>
      simp only [ht, Option.map_none] at hrest
      rw [hrest]
      rfl
    | some target =>
      simp only [ht, Option.map_some] at hrest
      exact ⟨hrest.head?_map_path, hrest.leads⟩

/-- What the guard owes to the result of a walk over `size` documents. `cut load n` is
the result of the walk with `load` as its way to load, if it has ended after `n` loads. -/
structure GuardExact (s : Source) (rules : Rules) (entry : Path) (size : Nat) {α : Type}
    (cut : Loader → Nat → Option (Except ChainError α)) (result : Except ChainError α) :
    Prop where
  stops : cut s.load (size + 1) = some result
  cycle_iff : (∃ q c, result = .error (.cycle q c)) ↔ s.Endless rules entry
  endless_iff : s.Endless rules entry ↔ ∀ n, cut s.loadAgain n = none
  transparent : ∀ n r, cut s.loadAgain n = some r → result = r

/-- The guard is exact for every result that is a function of the walk and has the
errors of the walk. -/
theorem guardExact_walk
    (hid : ∀ p q, s.identity p = s.identity q → s.parentOf? rules p = s.parentOf? rules q)
    (entry : Path) {α : Type} {f : Walk → Except ChainError α}
    (hf : ∀ walk e, f walk = .error e ↔ walk.ending = .error e) :
    s.GuardExact rules entry s.documents.length
      (fun load n => (walkWithin load rules n entry .empty).map f)
      (f (s.walk rules entry)) := by
  have hendless : s.Endless rules entry ↔
      ∀ n, (walkWithin s.loadAgain rules n entry .empty).map f = none := by
    simp only [Endless, Option.map_eq_none_iff, walkWithin_loadAgain_eq_none_iff]
  have hcycle : ∀ q c, f (s.walk rules entry) = .error (.cycle q c) →
      s.Endless rules entry := fun q c h =>
    endless_of_cycle hid (parentsMet_empty entry) ((hf _ _).1 h)
  have hplain : ¬ (∃ q c, f (s.walk rules entry) = .error (.cycle q c)) →
      ∃ n, walkWithin s.loadAgain rules n entry .empty = some (s.walk rules entry) :=
    fun h => exists_walkWithin_loadAgain fun q c hq => h ⟨q, c, (hf _ _).2 hq⟩
  refine ⟨?_, ⟨fun ⟨q, c, h⟩ => hcycle q c h, fun h => ?_⟩, hendless, fun n r hr => ?_⟩
  · have hlt : s.unseen .empty < s.documents.length + 1 :=
      Nat.lt_succ_of_le List.countP_le_length
    exact congrArg (Option.map f) (walkWithin_load hlt)
  · refine Classical.byContradiction fun hno => ?_
    obtain ⟨n, hn⟩ := hplain hno
    have hnone := hendless.1 h n
    rw [hn] at hnone
    cases hnone
  · obtain ⟨walk, hwalk, rfl⟩ := Option.map_eq_some_iff.1 hr
    have hno : ¬ ∃ q c, f (s.walk rules entry) = .error (.cycle q c) := by
      rintro ⟨q, c, h⟩
      have hnone := hendless.1 (hcycle q c h) n
      rw [hwalk] at hnone
      cases hnone
    obtain ⟨m, hm⟩ := hplain hno
    rw [walkWithin_unique hm hwalk]

end Source

namespace Shelf

variable {s : Shelf} {rules : Rules}

theorem parentOf?_source (p : Path) :
    s.source.parentOf? rules p =
      match s.documents.lookup p.normal with
      | none => none
      | some text =>
        match segment rules ⟨p, text⟩ with
        | .error _ => none
        | .ok segmented => segmented.parent := by
  have hread : s.source.read p = s.read p := rfl
  rw [Source.parentOf?, hread, read]
  cases s.documents.lookup p.normal <;> rfl

/-- Two spellings of one path are read alike. -/
theorem parentOf?_eq_of_normal {p q : Path} (h : p.normal = q.normal) :
    s.source.parentOf? rules p = s.source.parentOf? rules q := by
  rw [parentOf?_source, parentOf?_source, h]
  cases s.documents.lookup q.normal with
  | none => rfl
  | some text =>
    simp only
    cases hp : segment rules ⟨p, text⟩ with
    | ok segmented => rw [segment_of_path hp q]
    | error e =>
      cases hq : segment rules ⟨q, text⟩ with
      | ok segmented => exact absurd (segment_of_path hq p) (by rw [hp]; simp)
      | error e' => rfl

end Shelf

/-- The guard against cycles is exact for the chain and for the page of every walk over
documents in memory, and each path of a finished chain is the parent of the one before. -/
theorem cycle_guard_exact (s : Shelf) (rules : Rules) (entry : Path) (globals : Scope) :
    s.source.GuardExact rules entry s.documents.length
        (fun load n => chainWithin load rules n entry .empty)
        (s.source.chainOf rules entry) ∧
      s.source.GuardExact rules entry s.documents.length
        (fun load n => buildWithin load rules n entry .empty globals [])
        (s.source.build rules entry globals) ∧
      ∀ chain, (s.source.chainOf rules entry = .ok chain ∨
          ∃ text warnings, s.source.build rules entry globals = .ok ⟨text, chain, warnings⟩) →
        chain.head? = some entry ∧ s.source.Leads rules chain ∧
          (chain.map Path.normal).Nodup := by
  have hsize : s.documents.length = s.source.documents.length := (List.length_map ..).symm
  have hid : ∀ p q, s.source.identity p = s.source.identity q →
      s.source.parentOf? rules p = s.source.parentOf? rules q :=
    fun p q => Shelf.parentOf?_eq_of_normal
  rw [hsize]
  refine ⟨?_, ?_, fun chain h => ?_⟩
  · simp only [chainWithin_eq, Source.chainOf_eq]
    refine Source.guardExact_walk hid entry fun walk e => ?_
    unfold Walk.listed
    cases walk.ending <;> simp [Except.map]
  · simp only [buildWithin_eq, Source.build_eq]
    refine Source.guardExact_walk hid entry fun walk e => ?_
    unfold Walk.rendered
    cases walk.ending <;> simp [Except.map]
  · have hlast : ∃ last, (s.source.walk rules entry).ending = .ok last ∧ last.chain = chain := by
      rw [Source.chainOf_eq, Source.build_eq, Walk.listed, Walk.rendered] at h
      cases hw : (s.source.walk rules entry).ending with
      | error e => simp [hw, Except.map] at h
      | ok last => exact ⟨last, rfl, by simpa [hw, Except.map] using h⟩
    obtain ⟨last, hw, rfl⟩ := hlast
    obtain ⟨hclimb, hchain, hnodup, -⟩ := Source.climb_walkFrom hw
    rw [hchain]
    exact ⟨hclimb.head?_map_path, hclimb.leads, by rw [List.map_append, List.map_map]; exact hnodup⟩

end Folio
