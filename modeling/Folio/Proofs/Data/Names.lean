import Folio.Data.Kdl.Reader
import Folio.Proofs.Text.Reader

/-!
# Names as they are spelled

A bare name of a document is spelled as it is. Any other name is in quotes, maybe with number
signs around them, and its spelling is longer than itself, since an escape is never shorter
than what it stands for and a string that is dedented only loses characters (`Kdl.Spells`).
Spellings of the two kinds begin with different characters, so that no name that is in
quotes is spelled like a bare one.

`Kdl.wellSpelled_of_read?` : this holds of all names in a document that was read, at every
depth.
-/

namespace Folio.Kdl

open Reader

/-! ## Spellings -/

/-- Whether a spelling begins with a quote or a number sign. -/
def IsMarked (spelling : Text) : Prop :=
  spelling.head? = some '"' ∨ spelling.head? = some '#'

/-- Whether a text may be the spelling of a name. -/
inductive Spells : Text → Text → Prop
  | bare {t : Text} (h : ¬IsMarked t) : Spells t t
  | marked {spelling value : Text} (h : IsMarked spelling)
    (longer : value.length < spelling.length) : Spells spelling value

namespace Name

/-- Whether a name is spelled as a name may be. -/
def WellSpelled (n : Name) : Prop :=
  Spells n.spelling n.value

/-- Whether a name is spelled as it is. -/
def IsPlain (n : Name) : Prop :=
  n.spelling = n.value

variable {n : Name}

theorem WellSpelled.isPlain_iff (h : n.WellSpelled) : n.IsPlain ↔ ¬IsMarked n.spelling := by
  obtain ⟨value, spelling⟩ := n
  cases h with
  | bare hbare => exact iff_of_true rfl hbare
  | marked hmarked hlonger =>
    refine iff_of_false (fun hplain => ?_) (not_not_intro hmarked)
    have hsame : spelling = value := hplain
    rw [hsame] at hlonger
    exact Nat.lt_irrefl _ hlonger

theorem WellSpelled.length_lt (h : n.WellSpelled) (hn : ¬n.IsPlain) :
    n.value.length < n.spelling.length := by
  obtain ⟨value, spelling⟩ := n
  cases h with
  | bare _ => exact absurd rfl hn
  | marked _ hlonger => exact hlonger

end Name

/-- Whether all names in a node are spelled as names may be. -/
inductive Node.WellSpelled : Node → Prop
  | mk {name : Name} {entries : List NodeEntry} {children : Option (List Node)}
    (own : name.WellSpelled) (properties : ∀ e ∈ entries, ∀ n ∈ e.name, n.WellSpelled)
    (inside : ∀ block ∈ children, ∀ m ∈ block, Node.WellSpelled m) :
    Node.WellSpelled (.mk name entries children)

/-! ## What strings are spelled with -/

/-- Whether a reader gives no more characters than it takes. -/
def Shrinks (r : Reader Text) : Prop :=
  Gives r fun taken value => value.length ≤ taken.length

theorem gives_bareName : Gives bareName Spells := by
  refine (gives_run1 isNameChar).bind ?_
  rintro taken _ ⟨rfl, hne, hall⟩
  split
  · refine gives_pure ?_
    rw [List.append_nil]
    refine .bare ?_
    cases taken with
    | nil => exact absurd rfl hne
    | cons c rest =>
      have hc : isNameChar c := hall c List.mem_cons_self
      rintro (hquote | hsign)
      · rw [Option.some.inj hquote] at hc
        exact absurd hc (by decide)
      · rw [Option.some.inj hsign] at hc
        exact absurd hc (by decide)
  · exact gives_refuse _

theorem gives_escaped : Gives escaped fun taken _ => taken ≠ [] := by
  refine (gives_char '\\').bind ?_
  rintro _ _ rfl
  refine gives_anyChar.bind fun _ c _ => ?_
  split
  · refine (gives_char _).bind fun _ _ _ => (gives_run1 _).bind fun _ digits _ =>
      (gives_char _).bind fun _ _ _ => ?_
    dsimp only
    split
    · exact (gives_refuse fun _ _ => False).bind fun _ _ h => h.elim
    · split
      · exact gives_pure (List.cons_ne_nil _ _)
      · exact gives_refuse _
  · split
    · exact gives_pure (List.cons_ne_nil _ _)
    · exact gives_refuse _

theorem gives_escapedGap : Gives escapedGap fun _ _ => True :=
  (gives_char _).bind fun _ _ _ => (gives_run1 _).bind fun _ _ _ => gives_pure trivial

theorem shrinks_quotedPart : Shrinks quotedPart := by
  refine .orElse ?_ (.orElse ?_ ?_)
  · exact gives_escapedGap.bind fun _ _ _ => gives_pure (Nat.zero_le _)
  · refine gives_escaped.bind fun taken c hne => gives_pure ?_
    rw [List.append_nil]
    exact List.length_pos_iff.2 hne
  · refine (gives_satisfy _).bind ?_
    rintro _ c ⟨rfl, -⟩
    exact gives_pure (Nat.le_refl 1)

theorem shrinks_multiLinePart : Shrinks multiLinePart := by
  refine .orElse ?_ (.orElse ?_ ?_)
  · exact gives_escapedGap.bind fun _ _ _ => gives_pure (Nat.zero_le _)
  · refine (gives_char _).bind ?_
    rintro _ _ rfl
    refine gives_anyChar.bind ?_
    rintro _ c rfl
    exact gives_pure (Nat.le_refl 2)
  · refine (gives_notHere _).bind ?_
    rintro _ _ rfl
    refine (gives_satisfy _).bind ?_
    rintro _ c ⟨rfl, -⟩
    exact gives_pure (Nat.le_refl 1)

/-- Parts in a row shrink if each part does. -/
theorem Shrinks.many {r : Reader Text} (h : Shrinks r) :
    Gives (many r) fun taken parts => parts.flatten.length ≤ taken.length := by
  refine Gives.many h (Nat.le_refl 0) ?_
  intro taken part more parts hpart hparts
  rw [List.flatten_cons, List.length_append, List.length_append]
  exact Nat.add_le_add hpart hparts

/-- Characters in a row shrink if each one is read from something. -/
theorem gives_many_of_ne_nil {r : Reader Char} (h : Gives r fun taken _ => taken ≠ []) :
    Shrinks (Reader.many r) := by
  refine Gives.many h (Nat.le_refl 0) ?_
  intro taken c more cs hne hcs
  have hpos := List.length_pos_iff.2 hne
  rw [List.length_cons, List.length_append]
  omega

theorem gives_quotedString : Gives quotedString Spells := by
  refine (gives_char _).bind ?_
  rintro _ _ rfl
  refine shrinks_quotedPart.many.bind fun taken parts hparts => (gives_char _).bind ?_
  rintro _ _ rfl
  refine gives_pure (.marked (Or.inl rfl) ?_)
  simp only [List.length_append, List.length_cons, List.length_nil]
  omega

/-! ## Strings of several lines -/

/-- How many characters lines hold, each with the break behind it. -/
def weight : List Text → Nat
  | [] => 0
  | line :: rest => line.length + 1 + weight rest

theorem weight_concat (lines : List Text) (last : Text) :
    weight (lines ++ [last]) = weight lines + last.length + 1 := by
  induction lines with
  | nil =>
    simp only [List.nil_append, weight]
    omega
  | cons line rest ih =>
    simp only [List.cons_append, weight, ih]
    omega

theorem weight_splitLines_le (t : Text) : weight (splitLines t) ≤ t.length + 1 := by
  fun_induction splitLines t with
  | case1 => exact Nat.le_refl 1
  | case2 rest ih =>
    simp only [weight, List.length_cons, List.length_nil]
    omega
  | case3 c rest _ _ ih =>
    simp only [weight, List.length_cons, List.length_nil]
    omega
  | case4 c rest _ _ ih =>
    rw [List.length_cons]
    cases hlines : splitLines rest with
    | nil => exact Nat.zero_le _
    | cons line lines =>
      rw [hlines, weight] at ih
      rw [List.modifyHead_cons, weight, List.length_cons]
      omega

theorem length_join_le (lines : List Text) :
    (Text.join ['\n'] lines).length ≤ weight lines := by
  induction lines with
  | nil => exact Nat.le_refl 0
  | cons line lines ih =>
    cases lines with
    | nil =>
      have hjoin : Text.join ['\n'] [line] = line := by simp [Text.join]
      rw [hjoin, weight]
      omega
    | cons next lines =>
      have hjoin : Text.join ['\n'] (line :: next :: lines) =
          line ++ '\n' :: Text.join ['\n'] (next :: lines) := by simp [Text.join]
      rw [hjoin, weight, List.length_append, List.length_cons]
      omega

theorem weight_le_of_mapM {f : Text → Option Text} {lines shorter : List Text}
    (hf : ∀ line t, f line = some t → t.length ≤ line.length)
    (h : lines.mapM f = some shorter) : weight shorter ≤ weight lines := by
  induction lines generalizing shorter with
  | nil =>
    rw [List.mapM_nil] at h
    cases h
    exact Nat.le_refl 0
  | cons line lines ih =>
    rw [List.mapM_cons] at h
    obtain ⟨t, ht, h⟩ := Option.bind_eq_some_iff.1 h
    obtain ⟨ts, hts, h⟩ := Option.bind_eq_some_iff.1 h
    cases h
    have hline := hf line t ht
    have hlines := ih hts
    rw [weight, weight]
    omega

theorem dedent?_length_le {body t : Text} (h : dedent? body = some t) :
    t.length ≤ body.length := by
  have hbody := weight_splitLines_le body
  unfold dedent? at h
  split at h
  · rename_i rest hlines
    rw [hlines, weight] at hbody
    split at h
    · cases h
    · rename_i indent hlast
      split at h
      · obtain ⟨lines, hmap, rfl⟩ := Option.map_eq_some_iff.1 h
        have hshorter : weight lines ≤ weight rest.dropLast := by
          refine weight_le_of_mapM (fun line t ht => ?_) hmap
          split at ht
          · cases ht
            exact Nat.zero_le _
          · rw [eq_append_of_isPrefixOf? ht, List.length_append]
            exact Nat.le_add_left _ _
        obtain ⟨front, rfl⟩ := List.getLast?_eq_some_iff.1 hlast
        rw [List.dropLast_concat] at hshorter
        rw [weight_concat, List.length_nil] at hbody
        have hjoin := length_join_le lines
        omega
      · cases h
  · cases h

theorem unescaped_length_le {t value : Text} (h : readAll unescaped t = some value) :
    value.length ≤ t.length := by
  have hgives : Shrinks unescaped := by
    refine (gives_many_of_ne_nil (.orElse gives_escaped ?_)).bind fun taken cs hcs => ?_
    · refine (gives_satisfy _).mono ?_
      rintro _ c ⟨rfl, -⟩
      exact List.cons_ne_nil c []
    · refine gives_atEnd.bind ?_
      rintro _ _ rfl
      refine gives_pure ?_
      rwa [List.append_nil, List.append_nil]
  exact hgives.readAll h

theorem gives_multiLineString : Gives multiLineString Spells := by
  refine (gives_literal _).bind ?_
  rintro _ _ rfl
  refine shrinks_multiLinePart.many.bind fun taken parts hparts => (gives_literal _).bind ?_
  rintro _ _ rfl
  split
  · rename_i value hvalue
    obtain ⟨body, hbody, hread⟩ := Option.bind_eq_some_iff.1 hvalue
    have hbodyLength := dedent?_length_le hbody
    have hvalueLength := unescaped_length_le hread
    refine gives_pure (.marked (Or.inl rfl) ?_)
    simp only [List.length_append, List.length_cons, List.length_nil]
    omega
  · exact gives_refuse _

theorem gives_rawString : Gives rawString Spells := by
  refine (gives_run1 _).bind ?_
  rintro hashes _ ⟨rfl, hne, hall⟩
  have hmarked : ∀ more, IsMarked (hashes ++ more) := by
    intro more
    cases hashes with
    | nil => exact absurd rfl hne
    | cons c rest => exact Or.inr (congrArg some (of_decide_eq_true (hall c List.mem_cons_self)))
  have hbody : ∀ (close : Reader Unit) (p : Char → Bool),
      Shrinks (many do notHere close; satisfy p) := by
    intro close p
    refine gives_many_of_ne_nil ((gives_notHere close).bind ?_)
    rintro _ _ rfl
    refine (gives_satisfy p).mono ?_
    rintro _ c ⟨rfl, -⟩
    exact List.cons_ne_nil c []
  refine (gives_startsWith _).bind ?_
  rintro _ several rfl
  split
  · refine (gives_literal _).bind ?_
    rintro _ _ rfl
    refine (hbody _ _).bind fun taken body hlength => (gives_literal _).bind ?_
    rintro _ _ rfl
    split
    · rename_i value hvalue
      have hvalueLength := dedent?_length_le hvalue
      refine gives_pure (.marked (hmarked _) ?_)
      simp only [List.length_append, List.length_cons, List.length_nil]
      omega
    · exact gives_refuse _
  · refine (gives_char _).bind ?_
    rintro _ _ rfl
    refine (hbody _ _).bind fun taken body hlength => (gives_literal _).bind ?_
    rintro _ _ rfl
    refine gives_pure (.marked (hmarked _) ?_)
    simp only [List.length_append, List.length_cons, List.length_nil]
    omega

theorem gives_string : Gives string Spells :=
  .orElse gives_bareName
    (.orElse gives_multiLineString (.orElse gives_quotedString gives_rawString))

theorem yields_name : Yields name Name.WellSpelled := by
  intro t n rest hread
  obtain ⟨⟨value, rest⟩, hstring, heq⟩ := Option.map_eq_some_iff.1 hread
  cases heq
  obtain ⟨taken, rfl, hspells⟩ := gives_string t value rest hstring
  show Spells _ _
  dsimp only
  rwa [List.length_append, Nat.add_sub_cancel, List.take_left]

/-! ## Names in documents -/

theorem yields_property : Yields property fun e => ∀ n ∈ e.name, n.WellSpelled := by
  refine yields_name.bind fun key hkey => (yields_any _).bind fun _ _ =>
    (yields_any _).bind fun _ _ => (yields_any _).bind fun _ _ => (yields_any _).bind fun _ _ =>
    yields_pure ?_
  intro n hn
  cases hn
  exact hkey

theorem yields_nodeEntry : Yields nodeEntry fun e => ∀ n ∈ e.name, n.WellSpelled :=
  .orElse yields_property ((yields_any _).bind fun _ _ => yields_pure nofun)

theorem yields_spacedEntry :
    Yields spacedEntry fun es => ∀ e ∈ es, ∀ n ∈ e.name, n.WellSpelled := by
  refine (yields_any _).bind fun _ _ => (yields_any _).bind fun hidden _ => ?_
  cases hidden with
  | some _ => exact (yields_any _).bind fun _ _ => yields_pure nofun
  | none =>
    refine yields_nodeEntry.bind fun e he => yields_pure ?_
    exact List.forall_mem_singleton.2 he

variable {block : Reader (List Node)}

theorem yields_nodeOf (hblock : Yields block fun ns => ∀ n ∈ ns, n.WellSpelled) :
    Yields (nodeOf block) Node.WellSpelled := by
  have hchildren : Yields (spaces *> block) fun ns => ∀ n ∈ ns, n.WellSpelled :=
    (yields_any spaces).bind fun _ _ => hblock
  refine (yields_any _).bind fun _ _ => yields_name.bind fun own hown =>
    yields_spacedEntry.many.bind fun entries hentries => (yields_any _).bind fun _ _ =>
    hchildren.optional.bind fun children hinside => (yields_any _).bind fun _ _ =>
    (yields_any _).bind fun _ _ => (yields_any _).bind fun _ _ => yields_pure ?_
  refine .mk hown (fun e he => ?_) hinside
  obtain ⟨es, hes, he⟩ := List.mem_flatten.1 he
  exact hentries es hes e he

theorem yields_nodesOf (hblock : Yields block fun ns => ∀ n ∈ ns, n.WellSpelled) :
    Yields (nodesOf block) fun ns => ∀ n ∈ ns, n.WellSpelled := by
  refine (Yields.many (p := fun ns : List Node => ∀ n ∈ ns, n.WellSpelled) ?_).bind
    fun lists hlists => (yields_any _).bind fun _ _ => yields_pure ?_
  · refine (yields_any _).bind fun _ _ => (yields_any _).bind fun hidden _ => ?_
    cases hidden with
    | some _ => exact (yields_any _).bind fun _ _ => yields_pure nofun
    | none =>
      refine (yields_nodeOf hblock).bind fun n hn => yields_pure ?_
      exact List.forall_mem_singleton.2 hn
  · intro n hn
    obtain ⟨ns, hns, hn⟩ := List.mem_flatten.1 hn
    exact hlists ns hns n hn

theorem yields_nodes (depth : Nat) : Yields (nodes depth) fun ns => ∀ n ∈ ns, n.WellSpelled := by
  induction depth with
  | zero => exact yields_nodesOf (yields_refuse _)
  | succ depth ih =>
    have hopened : Yields (char '\x7b' *> nodes depth) fun ns => ∀ n ∈ ns, n.WellSpelled :=
      (yields_any _).bind fun _ _ => ih
    exact yields_nodesOf (hopened.bind fun _ hns => (yields_any _).bind fun _ _ => yields_pure hns)

/-- All names in a document that was read are spelled as names may be. -/
theorem wellSpelled_of_read? {t : Text} {ns : List Node} (h : read? t = some ns) :
    ∀ n ∈ ns, n.WellSpelled :=
  (yields_nodes _).readAll h

end Folio.Kdl
