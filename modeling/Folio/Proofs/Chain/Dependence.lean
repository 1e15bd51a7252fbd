import Mathlib
import Folio.Proofs.Chain.Spelling

/-!
# What a page depends on

`build_untouched` : documents that are put on a shelf, or replaced there, at paths that a
walk does not try to load change neither the page, nor the chain, nor the error of that
walk. `Source.Tries` says which paths these are : the entry, then always the parent that
the document before names, and last the path of a document without a parent, or the one
at which the walk fails.
-/

namespace Folio

theorem Walk.wanted_cons {level : Level} {parent : Path} (h : level.segmented.parent = some parent)
    (walk : Walk) (p : Path) : (walk.cons level).wanted p = p :: walk.wanted parent :=
  congrArg (p :: ·) (List.filterMap_cons_some h)

theorem Walk.listed_eq_ok_iff {walk : Walk} {chain : List Path} :
    walk.listed = .ok chain ↔ ∃ last, walk.ending = .ok last ∧ last.chain = chain := by
  unfold Walk.listed
  cases walk.ending <;> simp [Except.map]

theorem Walk.listed_eq_error_iff {walk : Walk} {e : ChainError} :
    walk.listed = .error e ↔ walk.ending = .error e := by
  unfold Walk.listed
  cases walk.ending <;> simp [Except.map]

namespace Source

/-- Whether `tried` lists the paths that a walk from `entry` tries to load, in order. -/
structure Tries (s : Source) (rules : Rules) (entry : Path) (tried : List Path) : Prop where
  first : tried.head? = some entry
  next : tried.IsChain fun p q => s.parentOf? rules p = some q
  whole : ∀ chain, s.chainOf rules entry = .ok chain → tried = chain
  cycle : ∀ p chain, s.chainOf rules entry = .error (.cycle p chain) → tried = chain ++ [p]
  /-- A document that cannot be read or split is the last one. -/
  stopped : ∀ e p, s.chainOf rules entry = .error e → e.document? = some p →
    tried.getLast? = some p

variable {s : Source} {rules : Rules} {p : Path} {trail : Trail}

theorem isChain_wanted (s : Source) (rules : Rules) (p : Path) (trail : Trail) :
    ((s.walkFrom rules p trail).wanted p).IsChain fun p q => s.parentOf? rules p = some q := by
  fun_induction walkFrom s rules p trail with
  | case1 => exact .singleton _
  | case2 p trail level trail' he hp => simp [Walk.wanted, hp]
  | case3 p trail level trail' he parent hp ih =>
    rw [Walk.wanted_cons hp]
    exact List.isChain_cons_cons.2 ⟨(parentOf?_of_enter he).trans hp, ih⟩

/-- The chain of a walk that ends well lists what the walk tried to load. -/
theorem chain_eq_append_wanted {last : Trail}
    (h : (s.walkFrom rules p trail).ending = .ok last) :
    last.chain = trail.chain ++ (s.walkFrom rules p trail).wanted p := by
  fun_induction walkFrom s rules p trail with
  | case1 => cases h
  | case2 p trail level trail' he hp =>
    cases h
    obtain ⟨-, -, -, -, rfl⟩ := enter_eq_ok he
    simp [Walk.wanted, hp, Trail.push]
  | case3 p trail level trail' he parent hp ih =>
    obtain ⟨-, -, -, -, rfl⟩ := enter_eq_ok he
    rw [Walk.wanted_cons hp, ih h]
    simp [Trail.push]

theorem cycle_eq_append_wanted {q : Path} {chain : List Path}
    (h : (s.walkFrom rules p trail).ending = .error (.cycle q chain)) :
    chain ++ [q] = trail.chain ++ (s.walkFrom rules p trail).wanted p := by
  fun_induction walkFrom s rules p trail with
  | case1 p trail e he =>
    obtain rfl : e = .cycle q chain := Except.error.inj h
    rcases enter_eq_error he with hcycle | ⟨hdoc, -⟩
    · cases hcycle
      rfl
    · cases hdoc
  | case2 => cases h
  | case3 p trail level trail' he parent hp ih =>
    obtain ⟨-, -, -, -, rfl⟩ := enter_eq_ok he
    rw [Walk.wanted_cons hp, ih h]
    simp [Trail.push]

theorem getLast?_wanted {e : ChainError} {q : Path}
    (h : (s.walkFrom rules p trail).ending = .error e) (hq : e.document? = some q) :
    ((s.walkFrom rules p trail).wanted p).getLast? = some q := by
  fun_induction walkFrom s rules p trail with
  | case1 p trail e' he =>
    obtain rfl : e' = e := Except.error.inj h
    rcases enter_eq_error he with rfl | ⟨hdoc, -⟩
    · cases hq
    · exact hdoc.symm.trans hq
  | case2 => cases h
  | case3 p trail level trail' he parent hp ih =>
    rw [Walk.wanted_cons hp]
    exact (List.getLast?_cons_cons ..).trans (ih h)

theorem tries_wanted (s : Source) (rules : Rules) (entry : Path) :
    s.Tries rules entry ((s.walk rules entry).wanted entry) := by
  refine ⟨rfl, isChain_wanted s rules entry .empty, fun chain h => ?_, fun p chain h => ?_,
    fun e p h hp => ?_⟩
  · rw [chainOf_eq, Walk.listed_eq_ok_iff] at h
    obtain ⟨last, hlast, rfl⟩ := h
    exact (chain_eq_append_wanted hlast).symm
  · rw [chainOf_eq, Walk.listed_eq_error_iff] at h
    exact (cycle_eq_append_wanted h).symm
  · rw [chainOf_eq, Walk.listed_eq_error_iff] at h
    exact getLast?_wanted h hp

/-- A chain, or the reason why there is none, is the same in every source that has the same
at the paths that the walk wants. -/
theorem chainOf_congr {other : Source} {entry : Path}
    (h : ∀ q ∈ (s.walk rules entry).wanted entry,
      other.read q = s.read q ∧ other.identity q = s.identity q) :
    other.chainOf rules entry = s.chainOf rules entry := by
  have hwalk : other.walk rules entry = s.walk rules entry := walkFrom_congr h
  rw [chainOf_eq, chainOf_eq, hwalk]

end Source

/-- What a walk does not try to load has no part in its result. Whatever is put on a shelf
at other paths, new or in place of what was there, the chain and the page are the same, and
so is the error where there is none. -/
theorem build_untouched (s : Shelf) (rules : Rules) (entry : Path) :
    ∃ tried, s.source.Tries rules entry tried ∧
      ∀ documents : List (Path × Text),
        (∀ d ∈ documents, ∀ p ∈ tried, d.1.normalize ≠ p.normalize) →
        (s.insertAll documents).source.chainOf rules entry = s.source.chainOf rules entry ∧
          ∀ globals, (s.insertAll documents).source.build rules entry globals =
            s.source.build rules entry globals := by
  refine ⟨_, s.source.tries_wanted rules entry, fun documents h => ?_⟩
  have hsame : ∀ p ∈ (s.source.walk rules entry).wanted entry,
      (s.insertAll documents).source.read p = s.source.read p ∧
        (s.insertAll documents).source.identity p = s.source.identity p := by
    intro p hp
    refine ⟨s.read_insertAll_of_forall_ne fun d hd => ?_, rfl⟩
    exact fun heq => h d hd p hp (Path.normalize_eq_normalize_iff.2 heq)
  exact ⟨Source.chainOf_congr hsame, Source.build_congr hsame⟩

theorem build_untouched_filed :
    ∃ tried, filed.source.Tries ⟨⟨[]⟩, false⟩ (.ofString "d/a") tried ∧
      tried = [.ofString "d/a", .ofString "b"] ∧
      (filed.insertAll [(.ofString "a", ['1']), (.ofString "d/../d/b", ['2']),
          (.ofString "a", ['3'])]).source.build ⟨⟨[]⟩, false⟩ (.ofString "d/a") (Dict.ofList []) =
        filed.source.build ⟨⟨[]⟩, false⟩ (.ofString "d/a") (Dict.ofList []) := by
  obtain ⟨tried, htries, hsame⟩ := build_untouched filed ⟨⟨[]⟩, false⟩ (.ofString "d/a")
  have hchain : filed.source.chainOf ⟨⟨[]⟩, false⟩ (.ofString "d/a") =
      .ok [.ofString "d/a", .ofString "b"] := by cbv
  obtain rfl := htries.whole _ hchain
  exact ⟨_, htries, rfl, (hsame _ (by decide +kernel)).2 _⟩

end Folio
