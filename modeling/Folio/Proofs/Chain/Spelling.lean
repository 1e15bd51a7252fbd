import Mathlib
import Folio.Proofs.Chain.Agreement
import Folio.Proofs.Path.Normal
import Folio.Proofs.Template.Faults

/-!
# The spelling of a path

A shelf knows its documents by the normal forms of their paths. `spelling_immaterial` : a
document is read as it was put last on the shelf, under whatever spelling of its path, and
two walks from one document under two spellings of its path end alike. Where they end well
the pages are the same, the chains are the same behind the entry, and the warnings are the
same but for the file of those about the entry. Where they do not, the errors are of one
kind, and name the same paths but for the entry.

From the second document on both walks are at the same path and have met the same
documents; only their chains begin with different spellings. What stands in front of the
chain of a trail has no part in a walk (`Source.walkFrom_behind`), so the rest of both is
one walk.
-/

namespace Folio

/-! ## Documents put on a shelf -/

namespace Shelf

variable {s : Shelf} {documents : List (Path × Text)} {p q : Path} {text : Text}

/-- Puts documents on a shelf, one after the other. -/
def insertAll (s : Shelf) (documents : List (Path × Text)) : Shelf :=
  documents.foldl (fun s d => s.insert d.1 d.2) s

theorem insertAll_concat (s : Shelf) (documents : List (Path × Text)) (d : Path × Text) :
    s.insertAll (documents ++ [d]) = (s.insertAll documents).insert d.1 d.2 :=
  List.foldl_append

/-- A document is read as it was put on the shelf, and all others are as they were. -/
theorem read_insert (s : Shelf) (q p : Path) (text : Text) :
    (s.insert q text).read p = if q.normal = p.normal then .ok text else s.read p := by
  unfold read insert
  rw [List.lookup_cons]
  by_cases h : q.normal = p.normal
  · simp [h]
  · have hne : (p.normal == q.normal) = false := by simpa using Ne.symm h
    rw [if_neg h, hne, Disk.lookup_filter_ne, if_neg (Ne.symm h)]

/-- Of several documents put at one path the last one is read. -/
theorem read_insertAll (s : Shelf) (documents : List (Path × Text)) (p : Path) :
    (s.insertAll documents).read p =
      match documents.reverse.find? fun d => d.1.normal = p.normal with
      | some d => .ok d.2
      | none => s.read p := by
  induction documents using List.reverseRecOn with
  | nil => rfl
  | append_singleton documents d ih =>
    rw [insertAll_concat, read_insert, List.reverse_concat, List.find?_cons]
    by_cases h : d.1.normal = p.normal
    · simp [h]
    · simp [h, ih]

/-- Documents put at other paths do not change what is read. -/
theorem read_insertAll_of_forall_ne (s : Shelf) (h : ∀ d ∈ documents, d.1.normal ≠ p.normal) :
    (s.insertAll documents).read p = s.read p := by
  have hnone : (documents.reverse.find? fun d => d.1.normal = p.normal) = none := by
    simpa using h
  rw [read_insertAll, hnone]

end Shelf

/-- Whether `text` is the last of some documents that was put at the path `p`, however that
path was spelled. -/
def LastAt (documents : List (Path × Text)) (p : Path) (text : Text) : Prop :=
  ∃ before q after, documents = before ++ (q, text) :: after ∧ q.normalize = p.normalize ∧
    ∀ d ∈ after, d.1.normalize ≠ p.normalize

theorem lastAt_iff_find? {documents : List (Path × Text)} {p : Path} {text : Text} :
    LastAt documents p text ↔
      (documents.reverse.find? fun d => d.1.normal = p.normal).map Prod.snd = some text := by
  simp only [LastAt, Path.normalize_eq_normalize_iff, ne_eq]
  constructor
  · rintro ⟨before, q, after, rfl, hq, hafter⟩
    have hfind : ((before ++ (q, text) :: after).reverse.find? fun d => d.1.normal = p.normal) =
        some (q, text) := by
      refine List.find?_eq_some_iff_append.2 ⟨by simpa using hq, after.reverse, before.reverse,
        by simp, fun d hd => ?_⟩
      simpa using hafter d (List.mem_reverse.1 hd)
    rw [hfind, Option.map_some]
  · intro h
    obtain ⟨⟨q, t⟩, hfind, rfl⟩ := Option.map_eq_some_iff.1 h
    obtain ⟨hq, front, back, hsplit, hfront⟩ := List.find?_eq_some_iff_append.1 hfind
    refine ⟨back.reverse, q, front.reverse, ?_, by simpa using hq, fun d hd => ?_⟩
    · rw [← List.reverse_reverse documents, hsplit]
      simp
    · simpa using hfront d (List.mem_reverse.1 hd)

namespace Shelf

variable {documents : List (Path × Text)} {p : Path} {text : Text} {reason : ReadError}

theorem read_ofInserts_eq_ok_iff :
    (empty.insertAll documents).read p = .ok text ↔ LastAt documents p text := by
  rw [lastAt_iff_find?, read_insertAll]
  cases documents.reverse.find? fun d => d.1.normal = p.normal with
  | none => simp [read, empty]
  | some d => simp

theorem read_ofInserts_eq_error_iff :
    (empty.insertAll documents).read p = .error reason ↔
      reason = .noDocument p ∧ ∀ d ∈ documents, d.1.normalize ≠ p.normalize := by
  simp only [Path.normalize_eq_normalize_iff, ne_eq]
  rw [read_insertAll]
  cases hfind : documents.reverse.find? fun d => d.1.normal = p.normal with
  | none =>
    have hnone : ∀ d ∈ documents, ¬d.1.normal = p.normal := by simpa using hfind
    have hread : empty.read p = .error (.noDocument p) := rfl
    rw [and_iff_left hnone, eq_comm]
    simp [hread]
  | some d =>
    have hd := List.find?_some hfind
    have hmem := List.mem_reverse.1 (List.mem_of_find?_eq_some hfind)
    simp only [reduceCtorEq, false_iff, not_and, not_forall, not_not]
    exact fun _ => ⟨d, hmem, by simpa using hd⟩

end Shelf

/-! ## What stands in front of a chain -/

/-- The trail with some paths in front of its chain. -/
def Trail.behind (front : List Path) (trail : Trail) : Trail :=
  ⟨front ++ trail.chain, trail.seen⟩

/-- The error of a walk with some paths in front of its chain. -/
def ChainError.behind (front : List Path) : ChainError → ChainError
  | .cycle path chain => .cycle path (front ++ chain)
  | .unreadable path reason => .unreadable path reason
  | .segment e => .segment e

/-- The walk with some paths in front of its chain. -/
def Walk.behind (front : List Path) (walk : Walk) : Walk where
  levels := walk.levels
  ending :=
    match walk.ending with
    | .ok last => .ok (last.behind front)
    | .error e => .error (e.behind front)

namespace Source

variable {s : Source} {rules : Rules}

theorem enter_behind (front : List Path) (p : Path) (trail : Trail) :
    enter s.load rules p (trail.behind front) =
      match enter s.load rules p trail with
      | .error e => .error (e.behind front)
      | .ok (level, trail') => .ok (level, trail'.behind front) := by
  unfold enter load
  by_cases hseen : s.identity p ∈ trail.seen
  · simp [Trail.behind, hseen, ChainError.behind]
  · cases hr : s.read p with
    | error reason => simp [Trail.behind, hseen, ChainError.behind]
    | ok text =>
      cases hs : segment rules ⟨p, text⟩ <;>
        simp [Trail.behind, Trail.push, hseen, hs, ChainError.behind]

/-- What stands in front of the chain of its trail has no part in a walk. -/
theorem walkFrom_behind (front : List Path) (p : Path) (trail : Trail) :
    s.walkFrom rules p (trail.behind front) = (s.walkFrom rules p trail).behind front := by
  fun_induction walkFrom s rules p trail with
  | case1 p trail e he =>
    rw [walkFrom_enter, enter_behind, he]
    rfl
  | case2 p trail level trail' he hp =>
    rw [walkFrom_enter, enter_behind, he]
    simp only [hp]
    rfl
  | case3 p trail level trail' he parent hp ih =>
    rw [walkFrom_enter, enter_behind, he]
    simp only [hp, ih]
    rfl

end Source

/-! ## Levels under another spelling -/

/-- The warning with another file. -/
def Warning.inFile (w : Warning) (file : Path) : Warning :=
  { w with file }

theorem warnings_resolve_inFile (scope : Scope) (p q : Path) (sections : Dict Text) :
    (resolve scope p sections).warnings.map (·.inFile q) =
      (resolve scope q sections).warnings := by
  simp only [resolve, List.map_flatMap, resolveText_snd, List.map_map]
  rfl

theorem file_of_mem_resolve {scope : Scope} {file : Path} {sections : Dict Text} {w : Warning}
    (h : w ∈ (resolve scope file sections).warnings) : w.file = file := by
  obtain ⟨name, text, -, hw⟩ := mem_warnings_resolve.1 h
  rw [resolveText_snd] at hw
  obtain ⟨left, -, rfl⟩ := List.mem_map.1 hw
  rfl

/-- Every warning of a walk is about one of its levels. -/
theorem exists_level_of_mem_complaints {w : Warning} : ∀ {levels : List Level} {scope : Scope},
    w ∈ complaints scope levels → ∃ level ∈ levels, w.file = level.path
  | [], _, h => absurd h List.not_mem_nil
  | level :: rest, scope, h => by
    rcases List.mem_append.1 h with hlevel | hrest
    · exact ⟨level, List.mem_cons_self, file_of_mem_resolve hlevel⟩
    · obtain ⟨other, hother, hw⟩ := exists_level_of_mem_complaints hrest
      exact ⟨other, List.mem_cons_of_mem level hother, hw⟩

/-- A document is split alike under all its paths. -/
theorem segment_error_of_path {rules : Rules} {p : Path} {text : Text} {e : SegmentError}
    (h : segment rules ⟨p, text⟩ = .error e) (q : Path) :
    e.path = p ∧ segment rules ⟨q, text⟩ = .error ⟨q, e.fault⟩ := by
  obtain ⟨hpath, hfault⟩ := segment_eq_error_iff_firstFault?.1 h
  exact ⟨hpath, segment_eq_error_iff_firstFault?.2 ⟨rfl, hfault⟩⟩

/-! ## Two walks from one document -/

/-- The path of the document that a walk could not read or split. -/
def ChainError.document? : ChainError → Option Path
  | .cycle _ _ => none
  | .unreadable path _ => some path
  | .segment e => some e.path

/-- How the error of a walk from `p` relates to that of the walk from `q`, another spelling
of the same path. -/
inductive ChainError.Respelled (p q : Path) : ChainError → ChainError → Prop
  | cycle (path : Path) (above : List Path) :
      Respelled p q (.cycle path (p :: above)) (.cycle path (q :: above))
  | unreadable : Respelled p q (.unreadable p (.noDocument p)) (.unreadable q (.noDocument q))
  | segment (fault : ShapeError) : Respelled p q (.segment ⟨p, fault⟩) (.segment ⟨q, fault⟩)
  /-- An error that is not about the entry is the same. -/
  | above {e : ChainError} {path : Path} (document : e.document? = some path)
      (other : path.normalize ≠ p.normalize) : Respelled p q e e

/-- How the chain of a walk from `p` relates to that of the walk from `q`. -/
def ChainRespelled (p q : Path) (chain other : List Path) : Prop :=
  ∃ above, chain = p :: above ∧ other = q :: above

/-- How the page of a walk from `p` relates to that of the walk from `q`. -/
structure Rendered.Respelled (p q : Path) (r other : Rendered) : Prop where
  text : other.text = r.text
  chain : ChainRespelled p q r.chain other.chain
  /-- The warnings about the entry come first, and no other is about it. -/
  warnings : ∃ own above, r.warnings = own ++ above ∧
    other.warnings = own.map (·.inFile q) ++ above ∧ (∀ w ∈ own, w.file = p) ∧
    ∀ w ∈ above, w.file.normalize ≠ p.normalize

/-- Whether two walks from `p` and from `q` end alike : both well and with results that are
related by `Alike`, or both with errors that are the same but for the spelling of `p`. -/
inductive EndsAlike {α : Type} (p q : Path) (Alike : α → α → Prop) :
    Except ChainError α → Except ChainError α → Prop
  | ok {a b : α} (h : Alike a b) : EndsAlike p q Alike (.ok a) (.ok b)
  | error {e e' : ChainError} (h : e.Respelled p q e') :
      EndsAlike p q Alike (.error e) (.error e')

/-- Errors that are the same but for a spelling are of one kind. -/
theorem ChainError.Respelled.code_eq {p q : Path} {e e' : ChainError} (h : e.Respelled p q e') :
    e.code = e'.code := by
  cases h <;> rfl

theorem EndsAlike.map {α β : Type} {p q : Path} {Alike : α → α → Prop} {Alike' : β → β → Prop}
    {f : α → β} (hf : ∀ a b, Alike a b → Alike' (f a) (f b)) {x y : Except ChainError α}
    (h : EndsAlike p q Alike x y) : EndsAlike p q Alike' (x.map f) (y.map f) := by
  cases h with
  | ok hab => exact .ok (hf _ _ hab)
  | error he => exact .error he

namespace Source

variable {s : Source} {rules : Rules}

/-- A document is not loaded because it was met before, or because it cannot be read or
split. -/
theorem enter_eq_error {p : Path} {trail : Trail} {e : ChainError}
    (h : enter s.load rules p trail = .error e) :
    e = .cycle p trail.chain ∨ e.document? = some p ∧ s.identity p ∉ trail.seen := by
  unfold enter load at h
  by_cases hseen : s.identity p ∈ trail.seen
  · rw [if_pos hseen] at h
    exact Or.inl (Except.error.inj h).symm
  · rw [if_neg hseen] at h
    refine Or.inr ⟨?_, hseen⟩
    cases hread : s.read p with
    | error reason =>
      rw [hread] at h
      cases h
      rfl
    | ok text =>
      cases hs : segment rules ⟨p, text⟩ with
      | ok segmented => simp [hread, hs] at h
      | error fault =>
        simp only [hread, hs, Except.error.injEq] at h
        rw [← h, ← (segment_error_of_path hs p).1]
        rfl

/-- A walk stops at a document that it had not met. -/
theorem identity_notMem_of_document? {p path : Path} {trail : Trail} {e : ChainError}
    (h : (s.walkFrom rules p trail).ending = .error e) (hpath : e.document? = some path) :
    s.identity path ∉ trail.seen := by
  fun_induction walkFrom s rules p trail with
  | case1 p trail e' he =>
    obtain rfl : e' = e := Except.error.inj h
    rcases enter_eq_error he with rfl | ⟨hp, hseen⟩
    · cases hpath
    · obtain rfl : p = path := Option.some.inj (hp.symm.trans hpath)
      exact hseen
  | case2 => cases h
  | case3 p trail level trail' he parent hp ih =>
    obtain ⟨-, -, -, -, rfl⟩ := enter_eq_ok he
    exact fun hmem => ih h (List.mem_cons_of_mem _ hmem)

/-- Behind the entry a walk knows of it nothing but its identity. -/
theorem walk_entry (s : Source) (rules : Rules) (p : Path) :
    s.walk rules p =
      match s.read p with
      | .error reason => ⟨[], .error (.unreadable p reason)⟩
      | .ok text =>
        match segment rules ⟨p, text⟩ with
        | .error e => ⟨[], .error (.segment e)⟩
        | .ok segmented =>
          match segmented.parent with
          | none => ⟨[⟨⟨p, text⟩, segmented⟩], .ok (Trail.empty.push p (s.identity p))⟩
          | some parent =>
            ((s.walkFrom rules parent ⟨[], [s.identity p]⟩).behind [p]).cons
              ⟨⟨p, text⟩, segmented⟩ := by
  have hseen : s.identity p ∉ Trail.empty.seen := List.not_mem_nil
  rw [walk, walkFrom_enter, enter, load, if_neg hseen]
  cases hread : s.read p with
  | error reason => rfl
  | ok text =>
    cases hs : segment rules ⟨p, text⟩ with
    | error e => simp [hs]
    | ok segmented =>
      cases hp : segmented.parent with
      | none => simp [hs, hp]
      | some parent =>
        simp only [hs, hp]
        rw [← walkFrom_behind]
        rfl

end Source

/-- The levels behind an entry, and the spelling of its path, have no part in each other. -/
theorem Walk.endsAlike_cons {rest : Walk} {p q : Path} {text : Text} {segmented : Segmented}
    (hlevels : ∀ last, rest.ending = .ok last → rest.levels ≠ [] ∧
      ∀ level ∈ rest.levels, level.path.normalize ≠ p.normalize)
    (herror : ∀ e path, rest.ending = .error e → e.document? = some path →
      path.normalize ≠ p.normalize) (globals : Scope) :
    EndsAlike p q (Rendered.Respelled p q)
      (((rest.behind [p]).cons ⟨⟨p, text⟩, segmented⟩).rendered globals [])
      (((rest.behind [q]).cons ⟨⟨q, text⟩, segmented⟩).rendered globals []) := by
  unfold Walk.rendered Walk.cons Walk.behind
  cases hending : rest.ending with
  | error e =>
    refine .error ?_
    cases e with
    | cycle path chain => exact .cycle path chain
    | unreadable path reason => exact .above rfl (herror _ _ hending rfl)
    | segment fault => exact .above rfl (herror _ _ hending rfl)
  | ok last =>
    obtain ⟨hne, hother⟩ := hlevels last hending
    obtain ⟨next, above, hrest⟩ := List.exists_cons_of_ne_nil hne
    refine .ok ⟨?_, ⟨last.chain, rfl, rfl⟩, _, complaints _ rest.levels, rfl, ?_,
      fun w hw => file_of_mem_resolve hw, fun w hw => ?_⟩
    · simp only [hrest]
      rfl
    · exact congrArg (· ++ _) (warnings_resolve_inFile globals p q segmented.sections).symm
    · obtain ⟨level, hlevel, hfile⟩ := exists_level_of_mem_complaints hw
      rw [hfile]
      exact hother level hlevel

namespace Shelf

theorem read_of_normal (s : Shelf) {p q : Path} (h : p.normal = q.normal) :
    (∃ text, s.source.read p = .ok text ∧ s.source.read q = .ok text) ∨
      s.source.read p = .error (.noDocument p) ∧ s.source.read q = .error (.noDocument q) := by
  have hread : ∀ r, s.source.read r = s.read r := fun r => rfl
  rw [hread, hread, read, read, h]
  cases s.documents.lookup q.normal with
  | none => exact Or.inr ⟨rfl, rfl⟩
  | some text => exact Or.inl ⟨text, rfl, rfl⟩

/-- Two builds of one document under two spellings of its path end alike. -/
theorem endsAlike_build (s : Shelf) (rules : Rules) (globals : Scope) {p q : Path}
    (h : p.normal = q.normal) :
    EndsAlike p q (Rendered.Respelled p q) (s.source.build rules p globals)
      (s.source.build rules q globals) := by
  rw [Source.build_eq, Source.build_eq, Source.walk_entry, Source.walk_entry]
  rcases s.read_of_normal h with ⟨text, hp, hq⟩ | ⟨hp, hq⟩
  · rw [hp, hq]
    cases hs : segment rules ⟨p, text⟩ with
    | error e =>
      obtain ⟨rfl, hother⟩ := segment_error_of_path hs q
      simp only [hs, hother]
      exact .error (.segment e.fault)
    | ok segmented =>
      have hother := segment_of_path hs q
      have hid : s.source.identity q = s.source.identity p := h.symm
      simp only [hs, hother, hid]
      cases hparent : segmented.parent with
      | none =>
        refine .ok ⟨rfl, ⟨[], rfl, rfl⟩, (resolve globals p segmented.sections).warnings, [], rfl,
          ?_, fun w hw => file_of_mem_resolve hw, List.forall_mem_nil _⟩
        rw [warnings_resolve_inFile]
        rfl
      | some parent =>
        refine Walk.endsAlike_cons (fun last hlast => ?_) (fun e path he hpath => ?_) globals
        · obtain ⟨hclimb, -, -, hseen⟩ := Source.climb_walkFrom hlast
          refine ⟨hclimb.ne_nil, fun level hlevel => ?_⟩
          have hne := hseen level hlevel
          rw [Ne, Path.normalize_eq_normalize_iff]
          exact fun heq => hne (List.mem_singleton.2 heq)
        · have hne := Source.identity_notMem_of_document? he hpath
          rw [Ne, Path.normalize_eq_normalize_iff]
          exact fun heq => hne (List.mem_singleton.2 heq)
  · rw [hp, hq]
    exact .error .unreadable

end Shelf

/-- The spelling of a path has no part in what a shelf answers. A document is read as it was
put last, and there is none to read exactly when none was put at that path. Two walks from
one document under two spellings of its path end alike, when they list a chain and when they
build a page, and if they fail they fail for one kind of reason. -/
theorem spelling_immaterial :
    (∀ (documents : List (Path × Text)) (p : Path),
      (∀ text, (Shelf.empty.insertAll documents).read p = .ok text ↔ LastAt documents p text) ∧
      ∀ reason, (Shelf.empty.insertAll documents).read p = .error reason ↔
        reason = .noDocument p ∧ ∀ d ∈ documents, d.1.normalize ≠ p.normalize) ∧
    ∀ (s : Shelf) (rules : Rules) (globals : Scope) (p q : Path), p.normalize = q.normalize →
      EndsAlike p q (Rendered.Respelled p q) (s.source.build rules p globals)
        (s.source.build rules q globals) ∧
      EndsAlike p q (ChainRespelled p q) (s.source.chainOf rules p) (s.source.chainOf rules q) ∧
      ∀ e e', s.source.build rules p globals = .error e →
        s.source.build rules q globals = .error e' → e.code = e'.code := by
  refine ⟨fun documents p => ⟨fun text => Shelf.read_ofInserts_eq_ok_iff,
    fun reason => Shelf.read_ofInserts_eq_error_iff⟩, fun s rules globals p q h => ?_⟩
  have hbuild := s.endsAlike_build rules globals (Path.normalize_eq_normalize_iff.1 h)
  refine ⟨hbuild, ?_, fun e e' he he' => ?_⟩
  · rw [s.source.chainOf_eq_map_build rules p globals,
      s.source.chainOf_eq_map_build rules q globals]
    exact hbuild.map fun r other hr => hr.chain
  · rw [he, he'] at hbuild
    cases hbuild with
    | error hkind => exact hkind.code_eq

/-- A document in a folder, and its parent. -/
def filed : Shelf :=
  (Shelf.empty.insert (.ofString "d/a") "$<inherit b>$1$<slot x>$".toList).insert
    (.ofString "b") "$<slot .>$2$<slot y>$".toList

theorem spelling_immaterial_filed :
    (Path.ofString "d/a").normalize = (Path.ofString "./d//e/../a").normalize ∧
      filed.source.build ⟨⟨[]⟩, false⟩ (.ofString "d/a") (Dict.ofList []) =
        .ok ⟨"1$<slot x>$2$<slot y>$".toList, [.ofString "d/a", .ofString "b"],
          [⟨.ofString "d/a", anonymous, "$<slot x>$".toList, .missingVariable ['x']⟩,
            ⟨.ofString "b", anonymous, "$<slot y>$".toList, .missingVariable ['y']⟩]⟩ ∧
      EndsAlike (.ofString "d/a") (.ofString "./d//e/../a")
        (Rendered.Respelled (.ofString "d/a") (.ofString "./d//e/../a"))
        (filed.source.build ⟨⟨[]⟩, false⟩ (.ofString "d/a") (Dict.ofList []))
        (filed.source.build ⟨⟨[]⟩, false⟩ (.ofString "./d//e/../a") (Dict.ofList [])) := by
  have h : (Path.ofString "d/a").normalize = (Path.ofString "./d//e/../a").normalize := by cbv
  exact ⟨h, by cbv, (spelling_immaterial.2 filed ⟨⟨[]⟩, false⟩ (Dict.ofList []) _ _ h).1⟩

end Folio
