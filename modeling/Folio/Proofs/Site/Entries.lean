import Folio.Proofs.Chain.Agreement
import Folio.Proofs.Disk.Frame
import Folio.Site.Report

/-!
# What building the entries does

`Site.renderAll` builds entries one after another and answers their results in order,
which is what a build reports (`Site.build_eq`).

One entry touches its output, if that changes, and a temporary file beside it, and a run
over entries touches what its entries touch (`Site.frame_renderAll`). So a file keeps
being read if whatever is written in its place has the same contents
(`Site.read_renderAll`), and the output of an entry that was built holds its contents at
the end if every later one in its place has the same.

What an entry gives is known from the documents on its chain (`Site.Gives.of_read`).
-/

namespace Folio

/-- The artifact as it is when its entry is rendered again on a disk where it gives the
same. -/
def Artifact.again (a : Artifact) (d : Disk) : Artifact :=
  { a with previous := (d.read a.output).toOption }

theorem Artifact.isChanged_again {a : Artifact} {d : Disk} :
    (a.again d).isChanged ↔ d.read a.output ≠ .ok a.contents := by
  rw [isChanged, decide_eq_true_iff]
  exact not_congr toOption_eq_some_iff

namespace Site

variable {s : Site} {d d' : Disk} {e : Entry} {a : Artifact} {tag : Text} {mode : BuildMode}
  {p : Path} {c : ByteArray} {result : Except SiteError Artifact}

/-! ## What an entry gives -/

/-- Whether an artifact has the contents, the chain and the warnings that its entry
gives on a disk. -/
def Gives (s : Site) (d : Disk) (a : Artifact) : Prop :=
  match a.entry.mode with
  | .template => ∃ text, a.contents = text.bytes ∧
      d.source.build s.rules (s.inputPath a.entry) s.globals = .ok ⟨text, a.chain, a.warnings⟩
  | .copy => d.read (s.inputPath a.entry) = .ok a.contents ∧
      a.chain = [s.inputPath a.entry] ∧ a.warnings = []

theorem render_eq_ok_iff : s.render d e = .ok a ↔ s.Gives d a ∧ a.entry = e ∧
    a.output = s.outputPath e ∧ a.previous = (d.read (s.outputPath e)).toOption := by
  unfold render Gives
  cases hmode : e.mode with
  | template =>
    constructor
    · intro h
      dsimp only at h
      split at h
      · rename_i r hr
        cases h
        rw [hmode]
        exact ⟨⟨r.text, rfl, hr⟩, rfl, rfl, rfl⟩
      · cases h
    · rintro ⟨hgives, rfl, houtput, hprevious⟩
      rw [hmode] at hgives
      obtain ⟨text, hcontents, hr⟩ := hgives
      dsimp only
      rw [hr]
      show Except.ok (⟨a.entry, s.outputPath a.entry, text.bytes,
        (d.read (s.outputPath a.entry)).toOption, a.chain, a.warnings⟩ : Artifact) = .ok a
      rw [← hprevious, ← houtput, ← hcontents]
  | copy =>
    constructor
    · intro h
      dsimp only at h
      split at h
      · rename_i contents' hread
        cases h
        rw [hmode]
        exact ⟨⟨hread, rfl, rfl⟩, rfl, rfl, rfl⟩
      · cases h
    · rintro ⟨hgives, rfl, houtput, hprevious⟩
      rw [hmode] at hgives
      obtain ⟨hread, hchain, hwarnings⟩ := hgives
      dsimp only
      rw [hread]
      show Except.ok (⟨a.entry, s.outputPath a.entry, a.contents,
        (d.read (s.outputPath a.entry)).toOption, [s.inputPath a.entry], []⟩ : Artifact) = .ok a
      rw [← hprevious, ← houtput, ← hchain, ← hwarnings]

/-- Every document on the chain of an artifact was read. -/
theorem Gives.exists_read (h : s.Gives d a) (hp : p ∈ a.chain) : ∃ c, d.read p = .ok c := by
  unfold Gives at h
  split at h
  · obtain ⟨text, -, hbuild⟩ := h
    obtain ⟨hclimb, hr⟩ := Source.climb_of_build_eq_ok hbuild
    have hchain : a.chain = _ := congrArg Rendered.chain hr
    rw [hchain] at hp
    obtain ⟨level, hlevel, rfl⟩ := List.mem_map.1 hp
    exact Disk.exists_read_of_readText (hclimb.read_eq level hlevel)
  · obtain ⟨hread, hchain, -⟩ := h
    rw [hchain, List.mem_singleton] at hp
    rw [hp]
    exact ⟨_, hread⟩

/-- An artifact is given on every disk on which the documents of its chain are read
again. -/
theorem Gives.of_read (h : s.Gives d a) (hcurrent : d'.current = d.current)
    (hread : ∀ p ∈ a.chain, ∀ c, d.read p = .ok c → d'.read p = .ok c) : s.Gives d' a := by
  have hagree : ∀ p ∈ a.chain, d'.read p = d.read p ∧ d'.resolve p = d.resolve p := by
    intro p hp
    obtain ⟨c, hc⟩ := h.exists_read hp
    have hc' : d'.read p = .ok c := hread p hp c hc
    rw [hc, hc', Disk.resolve_of_read hc, Disk.resolve_of_read hc', Disk.place_congr hcurrent]
    exact ⟨rfl, rfl⟩
  unfold Gives at h ⊢
  split at h
  · obtain ⟨text, htext, hbuild⟩ := h
    refine ⟨text, htext, Source.build_of_agree hbuild fun p hp => ?_⟩
    obtain ⟨hsame, hid⟩ := hagree p hp
    exact ⟨Disk.readText_congr hsame, hid⟩
  · obtain ⟨hinput, hchain, hwarnings⟩ := h
    refine ⟨hread _ ?_ _ hinput, hchain, hwarnings⟩
    rw [hchain]
    exact List.mem_singleton_self _

/-! ## One entry -/

/-- What one entry may touch : its temporary file, and its output if that changes. -/
theorem frame_renderEntry (h : s.renderEntry d (.write tag) e = (d', result)) :
    Disk.Frame
      (fun l => l = d.place (Writer.temporaryFor (s.outputPath e) tag) ∨
        ∃ a, result = .ok a ∧ a.isChanged ∧ l = d.place a.output)
      (· = d.place (Writer.temporaryFor (s.outputPath e) tag)) d d' := by
  unfold renderEntry at h
  split at h
  · cases h
    exact Disk.Frame.refl _ _ d
  · rename_i hmode
    cases hmode
  · rename_i a tag' hrender heq
    cases heq
    split at h
    · rename_i hchanged
      unfold writeOutput at h
      cases hr : d.replaceFile a.output tag a.contents with
      | mk d'' written =>
        rw [hr] at h
        obtain ⟨rfl, rfl⟩ := Prod.mk.inj h
        rw [← (render_eq_ok_iff.1 hrender).2.2.1]
        refine (Disk.frame_replaceFile hr).mono (fun l => Or.imp_right ?_) fun _ => id
        rintro ⟨hl, rfl⟩
        exact ⟨a, rfl, hchanged, hl⟩
    · cases h
      exact Disk.Frame.refl _ _ d

theorem isChanged_iff : a.isChanged ↔ a.previous ≠ some a.contents :=
  decide_eq_true_iff

/-- An entry that was built is rendered on the disk as it was, and afterwards its output
holds its contents. -/
theorem renderEntry_eq_ok (h : s.renderEntry d (.write tag) e = (d', .ok a)) :
    s.render d e = .ok a ∧ d'.read a.output = .ok a.contents := by
  unfold renderEntry at h
  split at h
  · cases h
  · rename_i hmode
    cases hmode
  · rename_i a' tag' hrender heq
    cases heq
    split at h
    · unfold writeOutput at h
      cases hr : d.replaceFile a'.output tag a'.contents with
      | mk d'' written =>
        rw [hr] at h
        obtain ⟨rfl, hwritten⟩ := Prod.mk.inj h
        cases written with
        | error reason => cases hwritten
        | ok _ =>
          cases hwritten
          exact ⟨hrender, Disk.read_replaceFile hr⟩
    · rename_i hchanged
      cases h
      obtain ⟨-, -, houtput, hprevious⟩ := render_eq_ok_iff.1 hrender
      have hheld : a.previous = some a.contents :=
        Classical.byContradiction fun hne => hchanged (isChanged_iff.2 hne)
      refine ⟨hrender, ?_⟩
      rw [houtput]
      rw [hheld] at hprevious
      cases hread : d.read (s.outputPath e) with
      | error reason =>
        rw [hread] at hprevious
        cases hprevious
      | ok c =>
        rw [hread] at hprevious
        rw [Option.some.inj hprevious]

/-- An entry that is rendered and not written, since its output holds what it gives or
nothing is to be written at all, leaves the disk alone. -/
theorem renderEntry_again (hgives : s.Gives d a) (houtput : a.output = s.outputPath a.entry)
    (h : mode = .dryRun ∨ d.read a.output = .ok a.contents) :
    s.renderEntry d mode a.entry = (d, .ok (a.again d)) := by
  have hrender : s.render d a.entry = .ok (a.again d) := by
    refine render_eq_ok_iff.2 ⟨hgives, rfl, houtput, ?_⟩
    rw [← houtput]
    rfl
  unfold renderEntry
  rw [hrender]
  cases mode with
  | dryRun => rfl
  | write tag =>
    have hread : d.read a.output = .ok a.contents := h.resolve_left nofun
    refine if_neg ?_
    rw [Artifact.isChanged_again]
    exact fun hchanged => hchanged hread

/-- A file is read again after an entry that writes the same in its place, if it writes
there at all. -/
theorem read_renderEntry (h : s.renderEntry d (.write tag) e = (d', result))
    (hp : d.read p = .ok c)
    (htemporary : d.place (Writer.temporaryFor (s.outputPath e) tag) ≠ d.place p)
    (hsame : ∀ a, result = .ok a → a.isChanged → d.place a.output = d.place p →
      a.contents = c) : d'.read p = .ok c := by
  have hframe := frame_renderEntry h
  by_cases htouched : ∃ a, result = .ok a ∧ a.isChanged ∧ d.place p = d.place a.output
  · obtain ⟨a, rfl, hchanged, hplace⟩ := htouched
    obtain ⟨-, houtput⟩ := renderEntry_eq_ok h
    rw [hsame a rfl hchanged hplace.symm] at houtput
    obtain ⟨-, hnode⟩ := Disk.read_eq_ok_iff.1 houtput
    rw [Disk.place_congr hframe.current, ← hplace] at hnode
    rw [Disk.read_eq_ok_iff, Disk.place_congr hframe.current]
    exact ⟨hframe.find? (Disk.read_eq_ok_iff.1 hp).1 (by rw [hnode]; rfl), hnode⟩
  · refine hframe.read hp ?_
    rintro (heq | htouch)
    · exact htemporary heq.symm
    · exact htouched htouch

/-! ## All entries -/

/-- Builds entries one after another and answers their results in the same order. -/
def renderAll (s : Site) (mode : BuildMode) (d : Disk) :
    List Entry → Disk × List (Except SiteError Artifact)
  | [] => (d, [])
  | e :: rest =>
    let (d, result) := s.renderEntry d mode e
    let (d, results) := s.renderAll mode d rest
    (d, result :: results)

theorem length_renderAll (entries : List Entry) :
    (s.renderAll mode d entries).2.length = entries.length := by
  induction entries generalizing d with
  | nil => rfl
  | cons e rest ih => exact congrArg (· + 1) ih

/-- What a run over entries touches is what they write, and their temporary files. -/
theorem frame_renderAll (s : Site) (tag : Text) (d : Disk) (entries : List Entry) :
    Disk.Frame
      (fun l => (∃ e ∈ entries, l = d.place (Writer.temporaryFor (s.outputPath e) tag)) ∨
        ∃ a, .ok a ∈ (s.renderAll (.write tag) d entries).2 ∧ a.isChanged ∧
          l = d.place a.output)
      (fun l => ∃ e ∈ entries, l = d.place (Writer.temporaryFor (s.outputPath e) tag))
      d (s.renderAll (.write tag) d entries).1 := by
  induction entries generalizing d with
  | nil => exact Disk.Frame.refl _ _ d
  | cons e rest ih =>
    cases hfirst : s.renderEntry d (.write tag) e with
    | mk d₁ result =>
      have hframe := frame_renderEntry hfirst
      have hrest := ih d₁
      have hplace : ∀ p, d₁.place p = d.place p := Disk.place_congr hframe.current
      simp only [renderAll, hfirst]
      simp only [hplace] at hrest
      refine (hframe.mono ?_ ?_).trans (hrest.mono ?_ ?_)
      · rintro l (rfl | ⟨a, rfl, ha⟩)
        · exact Or.inl ⟨e, List.mem_cons_self, rfl⟩
        · exact Or.inr ⟨a, List.mem_cons_self, ha⟩
      · rintro l rfl
        exact ⟨e, List.mem_cons_self, rfl⟩
      · rintro l (⟨e', he', rfl⟩ | ⟨a, ha, hl⟩)
        · exact Or.inl ⟨e', List.mem_cons_of_mem e he', rfl⟩
        · exact Or.inr ⟨a, List.mem_cons_of_mem _ ha, hl⟩
      · rintro l ⟨e', he', rfl⟩
        exact ⟨e', List.mem_cons_of_mem e he', rfl⟩

/-- A file is read again after a run over entries that write the same in its place, as
far as they write there. -/
theorem read_renderAll {entries : List Entry} (hp : d.read p = .ok c)
    (htemporary : ∀ e ∈ entries, d.place (Writer.temporaryFor (s.outputPath e) tag) ≠ d.place p)
    (hsame : ∀ a, .ok a ∈ (s.renderAll (.write tag) d entries).2 → a.isChanged →
      d.place a.output = d.place p → a.contents = c) :
    (s.renderAll (.write tag) d entries).1.read p = .ok c := by
  induction entries generalizing d with
  | nil => exact hp
  | cons e rest ih =>
    cases hfirst : s.renderEntry d (.write tag) e with
    | mk d₁ result =>
      have hplace : ∀ p, d₁.place p = d.place p :=
        Disk.place_congr (frame_renderEntry hfirst).current
      simp only [renderAll, hfirst] at hsame ⊢
      have hp₁ : d₁.read p = .ok c := by
        refine read_renderEntry hfirst hp (htemporary e List.mem_cons_self) ?_
        rintro a rfl
        exact hsame a List.mem_cons_self
      refine ih hp₁ ?_ ?_
      · intro e' he'
        rw [hplace, hplace]
        exact htemporary e' (List.mem_cons_of_mem e he')
      · intro a ha
        rw [hplace, hplace]
        exact hsame a (List.mem_cons_of_mem _ ha)

end Site

/-! ## The pool and the report -/

namespace Pool

variable {α : Type} {p : Pool α}

/-- A pool without busy workers that hands out one more task and takes its answer. -/
theorem start_answer (hbusy : p.busy = []) (hbound : 0 < p.bound) (hleft : p.started < p.total)
    (a : α) : p.start.answer p.started a =
      { p with started := p.started + 1, answers := (p.started, a) :: p.answers } := by
  have hfree : p.busy.length < p.bound := by
    rw [hbusy]
    exact hbound
  rw [start, if_pos ⟨hleft, hfree⟩, answer, if_pos List.mem_cons_self, List.erase_cons_head]

theorem results_cons (a : α) :
    ({ p with started := p.started + 1, answers := (p.started, a) :: p.answers } : Pool α).results =
      p.results ++ [some a] := by
  have hold : ∀ task ∈ List.range p.started,
      ((p.started, a) :: p.answers).lookup task = p.answers.lookup task := by
    intro task htask
    have hne : (task == p.started) = false :=
      beq_false_of_ne (Nat.ne_of_lt (List.mem_range.1 htask))
    rw [List.lookup_cons, hne]
  rw [results, results, List.range_succ, List.map_append, List.map_congr_left hold,
    List.map_singleton, List.lookup_cons_self]

end Pool

namespace Site

variable {s : Site} {d : Disk} {mode : BuildMode}

/-- The results of a pool in which entries are built one after another. -/
theorem buildEntries_eq (s : Site) (mode : BuildMode) (d : Disk) (entries : List Entry)
    (pool : Pool (Except SiteError Artifact)) (hbusy : pool.busy = []) (hbound : 0 < pool.bound)
    (hleft : pool.started + entries.length ≤ pool.total) :
    (s.buildEntries mode d pool entries).1 = (s.renderAll mode d entries).1 ∧
      (s.buildEntries mode d pool entries).2.results =
        pool.results ++ (s.renderAll mode d entries).2.map some := by
  induction entries generalizing d pool with
  | nil => exact ⟨rfl, (List.append_nil _).symm⟩
  | cons e rest ih =>
    cases hfirst : s.renderEntry d mode e with
    | mk d₁ result =>
      rw [List.length_cons] at hleft
      have hnext := Pool.start_answer hbusy hbound (by omega) result
      obtain ⟨hdisk, hresults⟩ := ih d₁
        { pool with
          started := pool.started + 1, answers := (pool.started, result) :: pool.answers }
        hbusy hbound (show pool.started + 1 + rest.length ≤ pool.total by omega)
      simp only [buildEntries, renderAll, hfirst, hnext]
      refine ⟨hdisk, ?_⟩
      rw [hresults, Pool.results_cons, List.append_assoc]
      rfl

/-- A build renders all entries, prunes afterwards, and reports both. -/
theorem build_eq (s : Site) (mode : BuildMode) (d : Disk) :
    let rendered := s.renderAll mode d s.manifest.entries
    let pruned := s.pruneAfter mode rendered.1
    s.build mode d = (pruned.1, .ofOutcomes s.manifest (rendered.2.map some) pruned.2) := by
  obtain ⟨hdisk, hresults⟩ := buildEntries_eq s mode d s.manifest.entries
    { bound := s.config.jobBound 1, total := s.manifest.entries.length }
    rfl (Nat.lt_of_lt_of_le Nat.one_pos (Nat.le_max_left _ _)) (Nat.le_of_eq (Nat.zero_add _))
  simp only [build]
  rw [hdisk, hresults]
  rfl

end Site

end Folio
