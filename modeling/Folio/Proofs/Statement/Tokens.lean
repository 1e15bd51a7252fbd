import Folio.Proofs.Statement.Grammar
import Folio.Proofs.Statement.Words
import Folio.Proofs.Text.Boundary

/-!
# Words by their byte offsets

`splitWords` goes through a body character by character. Here a body comes as tokens, each
with the bytes that it takes up : `wordsAt?` slices every token out of the body, slices the
quotes off a token that has them, and puts the words together. It answers `none` as soon as
a slice fails.

What is asked of the tokens is `Fits` : they lie on boundaries, and a quoted one has a
quote at both of its ends. No slice fails then (`isSome_wordsAt?`), since a quote is a
single byte. `tokens` cuts a body into the longest runs and quoted texts, these tokens fit
(`fits_tokens`), and the words that are sliced out of them are those of `splitWords`
(`wordsAt?_tokens`).
-/

namespace Folio

/-- What a token of a body is. -/
inductive TokenKind where
  | blank
  | quoted
  | word
  | stray
deriving DecidableEq

/-- A token of a body and the bytes that it takes up. -/
structure Token where
  kind : TokenKind
  span : Span
deriving DecidableEq

/-- The words that are complete, and the word that is being put together, if any. -/
structure Gathered where
  done : List Text
  current : Option Text

namespace Gathered

/-- All words, if nothing follows. -/
def all (g : Gathered) : List Text :=
  g.done ++ g.current.toList

/-- A text is glued to the current word. -/
def glue (g : Gathered) (t : Text) : Gathered :=
  ⟨g.done, some (g.current.getD [] ++ t)⟩

/-- The current word ends. -/
def split (g : Gathered) : Gathered :=
  ⟨g.all, none⟩

/-- What a token with the text `t` adds. A quoted token loses its first and its last byte. -/
def add? (g : Gathered) (t : Text) : TokenKind → Option Gathered
  | .blank => some g.split
  | .quoted => (t.slice? 1 (t.size - 1)).map fun inner =>
    g.glue (if '\\' ∈ inner then (Quoted.unescape .outside inner).getD t else inner)
  | .word => some (g.glue t)
  | .stray => some (g.glue t)

end Gathered

/-- The words of a body, from the words in front of some tokens on. -/
def wordsFrom? (body : Text) (g : Gathered) : List Token → Option (List Text)
  | [] => some g.all
  | k :: rest =>
    (body.slice? k.span.start k.span.stop).bind fun t =>
      (g.add? t k.kind).bind fun next => wordsFrom? body next rest

/-- The words of a body that is cut into tokens. -/
def wordsAt? (body : Text) (tokens : List Token) : Option (List Text) :=
  wordsFrom? body ⟨[], none⟩ tokens

/-- Whether the tokens of a body lie on boundaries, and each quoted one begins and ends with
a quote. -/
structure Fits (body : Text) (tokens : List Token) : Prop where
  sliceable : ∀ k ∈ tokens, Sliceable body.utf8 k.span.start k.span.stop
  quoted : ∀ k ∈ tokens, k.kind = .quoted → k.span.start + 2 ≤ k.span.stop ∧
    ∃ q, isQuote q ∧ body.utf8[k.span.start]? = some q.toUInt8 ∧
      body.utf8[k.span.stop - 1]? = some q.toUInt8

theorem toNat_lt_of_isQuote {q : Char} (h : isQuote q) : q.toNat < 128 := by
  rcases isQuote_iff.1 h with rfl | rfl <;> decide

theorem utf8Size_of_isQuote {q : Char} (h : isQuote q) : q.utf8Size = 1 := by
  rcases isQuote_iff.1 h with rfl | rfl <;> decide

/-! ## Tokens that fit -/

theorem size_quoted {q : Char} (hq : isQuote q) (inner : Text) :
    Text.size (q :: inner ++ [q]) = inner.size + 2 := by
  have hone := utf8Size_of_isQuote hq
  have hquote : Text.size [q] = 1 := hone
  rw [Text.size_append, Text.size_cons, hone, hquote]
  omega

/-- A quote is one byte, so the quotes around a text can be sliced off. -/
theorem slice?_unquote {q : Char} (hq : isQuote q) (inner : Text) :
    Text.slice? (q :: inner ++ [q]) 1 (Text.size (q :: inner ++ [q]) - 1) = some inner := by
  have hquote : Text.size [q] = 1 := utf8Size_of_isQuote hq
  refine Text.slice?_eq_some_iff.2 ⟨[q], [q], rfl, hquote, ?_⟩
  rw [size_quoted hq]
  omega

/-- A slice with a quote at both ends is a text between quotes. -/
theorem exists_inner_of_slice? {body t : Text} {start stop : Nat} {q : Char} (hq : isQuote q)
    (h : body.slice? start stop = some t) (hroom : start + 2 ≤ stop)
    (hfirst : body.utf8[start]? = some q.toUInt8)
    (hlast : body.utf8[stop - 1]? = some q.toUInt8) : ∃ inner, t = q :: inner ++ [q] := by
  have hascii := toNat_lt_of_isQuote hq
  obtain ⟨n, rfl⟩ := Nat.exists_eq_add_of_le hroom
  have hplace : start + 2 + n - 1 = start + (n + 1) := by omega
  rw [hplace, ← Text.getElem?_utf8_of_slice? h (by omega)] at hlast
  rw [← Nat.add_zero start, ← Text.getElem?_utf8_of_slice? h (by omega)] at hfirst
  -- The quote at the end is not the one at the front.
  obtain ⟨u, rfl⟩ := Text.exists_cons_of_getElem?_utf8 hascii hfirst
  rw [Text.utf8_cons_of_lt hascii, List.getElem?_cons_succ] at hlast
  obtain ⟨inner, v, rfl, hinner⟩ := Text.exists_of_getElem?_utf8 hascii hlast
  have hv : Text.size v = 0 := by
    have hsize := Text.size_of_slice? h
    rw [Text.size_cons, Text.size_append, Text.size_cons, utf8Size_of_isQuote hq] at hsize
    omega
  obtain rfl := Text.size_eq_zero_iff.1 hv
  exact ⟨inner, rfl⟩

theorem isSome_wordsFrom? {body : Text} : ∀ {tokens : List Token}, Fits body tokens →
    ∀ g : Gathered, (wordsFrom? body g tokens).isSome
  | [], _, _ => rfl
  | k :: rest, h, g => by
    obtain ⟨t, ht⟩ := Option.isSome_iff_exists.1
      (Text.isSome_slice?_iff.2 (h.sliceable k List.mem_cons_self))
    have hadd : ∃ next, g.add? t k.kind = some next := by
      cases hk : k.kind with
      | blank => exact ⟨_, rfl⟩
      | word => exact ⟨_, rfl⟩
      | stray => exact ⟨_, rfl⟩
      | quoted =>
        obtain ⟨hroom, q, hq, hfirst, hlast⟩ := h.quoted k List.mem_cons_self hk
        obtain ⟨inner, rfl⟩ := exists_inner_of_slice? hq ht hroom hfirst hlast
        exact ⟨_, by rw [Gathered.add?, slice?_unquote hq, Option.map_some]⟩
    obtain ⟨next, hnext⟩ := hadd
    have hrest : Fits body rest :=
      ⟨fun k hk => h.sliceable k (List.mem_cons_of_mem _ hk),
        fun k hk => h.quoted k (List.mem_cons_of_mem _ hk)⟩
    rw [wordsFrom?, ht, Option.bind_some, hnext, Option.bind_some]
    exact isSome_wordsFrom? hrest next

/-- Tokens that fit a body can be sliced out of it, and their quotes off them. -/
theorem isSome_wordsAt? {body : Text} {tokens : List Token} (h : Fits body tokens) :
    (wordsAt? body tokens).isSome :=
  isSome_wordsFrom? h _

/-! ## The longest tokens -/

/-- The characters of a word without quotes. -/
def isPlain (c : Char) : Bool :=
  !isSeparator c && !isQuote c

/-- A token as it is written. -/
structure Chunk where
  kind : TokenKind
  text : Text

/-- Cuts a text into runs of separators, runs of plain characters and quoted texts. What
follows a quote without a partner belongs to it. -/
def chunks : Text → List Chunk
  | [] => []
  | c :: rest =>
    if isSeparator c then
      ⟨.blank, c :: rest.takeWhile isSeparator⟩ :: chunks (rest.dropWhile isSeparator)
    else if isQuote c then
      match _h : closeQuote? c rest with
      | some (inner, after) => ⟨.quoted, c :: inner ++ [c]⟩ :: chunks after
      | none => [⟨.stray, c :: rest⟩]
    else ⟨.word, c :: rest.takeWhile isPlain⟩ :: chunks (rest.dropWhile isPlain)
termination_by t => t.length
decreasing_by
  all_goals simp_wf
  · have := (List.dropWhile_suffix (l := rest) isSeparator).length_le
    omega
  · have := congrArg List.length (closeQuote?_eq_append _h)
    simp at this
    omega
  · have := (List.dropWhile_suffix (l := rest) isPlain).length_le
    omega

theorem chunks_nil : chunks [] = [] := by
  rw [chunks]

/-- The tokens of some chunks, the first of which stands at byte `start`. -/
def Chunk.place (start : Nat) : List Chunk → List Token
  | [] => []
  | k :: rest => ⟨k.kind, ⟨start, start + k.text.size⟩⟩ :: Chunk.place (start + k.text.size) rest

/-- The tokens of a body. -/
def tokens (body : Text) : List Token :=
  Chunk.place 0 (chunks body)

/-- The chunks of a text, written one after the other, are the text. -/
theorem flatMap_chunks (t : Text) : (chunks t).flatMap Chunk.text = t := by
  fun_induction chunks t with
  | case1 => rfl
  | case2 c rest _ ih => simp [ih]
  | case3 c rest _ _ inner after h ih => simp [ih, closeQuote?_eq_append h]
  | case4 => simp
  | case5 c rest _ _ ih => simp [ih]

/-- A quoted chunk has quotes around it. -/
theorem exists_inner_of_mem_chunks {t : Text} {k : Chunk} (hk : k ∈ chunks t)
    (hkind : k.kind = .quoted) : ∃ q inner, isQuote q ∧ k.text = q :: inner ++ [q] := by
  fun_induction chunks t with
  | case1 => cases hk
  | case2 c rest hc ih =>
    rcases List.mem_cons.1 hk with rfl | hk
    · cases hkind
    · exact ih hk
  | case3 c rest hc hq inner after h ih =>
    rcases List.mem_cons.1 hk with rfl | hk
    · exact ⟨c, inner, hq, rfl⟩
    · exact ih hk
  | case4 c rest hc hq h =>
    obtain rfl := List.mem_singleton.1 hk
    cases hkind
  | case5 c rest hc hq ih =>
    rcases List.mem_cons.1 hk with rfl | hk
    · cases hkind
    · exact ih hk

/-- A token stands where the chunks in front of it end. -/
theorem exists_chunk_of_mem_place {l : List Chunk} {before : Text} {k : Token}
    (hk : k ∈ Chunk.place before.size l) :
    ∃ c ∈ l, ∃ front after, before ++ l.flatMap Chunk.text = front ++ (c.text ++ after) ∧
      k = ⟨c.kind, ⟨front.size, front.size + c.text.size⟩⟩ := by
  induction l generalizing before with
  | nil => cases hk
  | cons c l ih =>
    rcases List.mem_cons.1 hk with rfl | hk
    · exact ⟨c, List.mem_cons_self, before, l.flatMap Chunk.text, by simp, rfl⟩
    · rw [← Text.size_append] at hk
      obtain ⟨d, hd, front, after, he, rfl⟩ := ih hk
      exact ⟨d, List.mem_cons_of_mem c hd, front, after, by simpa using he, rfl⟩

/-- The tokens of a body fit it. -/
theorem fits_tokens (body : Text) : Fits body (tokens body) := by
  have hchunk : ∀ k ∈ tokens body, ∃ c ∈ chunks body, ∃ front after,
      body = front ++ (c.text ++ after) ∧
        k = ⟨c.kind, ⟨front.size, front.size + c.text.size⟩⟩ := by
    intro k hk
    have hplace := @exists_chunk_of_mem_place (chunks body) [] k hk
    rwa [List.nil_append, flatMap_chunks] at hplace
  refine ⟨fun k hk => ?_, fun k hk hkind => ?_⟩
  · obtain ⟨c, -, front, after, rfl, rfl⟩ := hchunk k hk
    refine Text.isSome_slice?_iff.1 (Option.isSome_iff_exists.2 ⟨c.text, ?_⟩)
    exact Text.slice?_eq_some_iff.2 ⟨front, after, rfl, rfl, rfl⟩
  · obtain ⟨c, hc, front, after, rfl, rfl⟩ := hchunk k hk
    obtain ⟨q, inner, hq, htext⟩ := exists_inner_of_mem_chunks hc hkind
    have hascii := toNat_lt_of_isQuote hq
    have hsize : c.text.size = Text.size inner + 2 := by rw [htext, size_quoted hq]
    have hlast : Text.size (front ++ q :: inner) = front.size + c.text.size - 1 := by
      rw [Text.size_append, Text.size_cons, utf8Size_of_isQuote hq]
      omega
    have hends : front ++ (c.text ++ after) = (front ++ q :: inner) ++ q :: after := by
      simp [htext]
    refine ⟨?_, q, hq, ?_, ?_⟩
    · show front.size + 2 ≤ front.size + c.text.size
      omega
    · show (Text.utf8 (front ++ (c.text ++ after)))[front.size]? = some q.toUInt8
      rw [htext]
      exact Text.getElem?_utf8_of_lt hascii front (inner ++ [q] ++ after)
    · show (Text.utf8 (front ++ (c.text ++ after)))[front.size + c.text.size - 1]? = some q.toUInt8
      rw [← hlast, hends]
      exact Text.getElem?_utf8_of_lt hascii (front ++ q :: inner) after

/-! ## The words of the tokens -/

namespace Gathered

/-- All words, if the lexemes that follow make up a rest of the current word and other
words. -/
def finish (g : Gathered) (rest : Option Text × List Text) : List Text :=
  match g.current with
  | none => g.done ++ (rest.1.toList ++ rest.2)
  | some word => g.done ++ (word ++ rest.1.getD []) :: rest.2

theorem finish_glue (g : Gathered) (t : Text) (rest : Option Text × List Text) :
    (g.glue t).finish rest = g.finish (some (t ++ rest.1.getD []), rest.2) := by
  obtain ⟨done, _ | word⟩ := g <;> simp [glue, finish]

theorem finish_split (g : Gathered) (rest : Option Text × List Text) :
    g.split.finish rest = g.finish (none, rest.1.toList ++ rest.2) := by
  obtain ⟨done, _ | word⟩ := g <;> simp [split, finish, all]

theorem finish_nil (g : Gathered) : g.finish (none, []) = g.all := by
  obtain ⟨done, _ | word⟩ := g <;> simp [finish, all]

/-- Without its quotes a quoted text adds what it stands for. -/
theorem add?_quoted (g : Gathered) {q : Char} (hq : isQuote q) (inner : Text) :
    g.add? (q :: inner ++ [q]) .quoted = some (g.glue (quotedValue q inner)) := by
  rw [add?, slice?_unquote hq, Option.map_some]
  rfl

end Gathered

theorem splitWords_eq (t : Text) :
    splitWords t = (gather (lexemes t)).1.toList ++ (gather (lexemes t)).2 := rfl

/-- A run of separators ends the word in front of it. -/
theorem gather_separators {c : Char} {s : Text} (hc : isSeparator c)
    (hs : ∀ d ∈ s, isSeparator d) (t : Text) :
    gather (lexemes (c :: (s ++ t))) = (none, splitWords t) := by
  rw [lexemes_separator hc, ← splitWords_separators hs t]
  rfl

/-- The first chunk is sliced out of a text, and the others as if it were in front. -/
theorem wordsFrom?_place_cons {before rest : Text} {k : Chunk} {l : List Chunk}
    {g next : Gathered} {words : List Text} (hadd : g.add? k.text k.kind = some next)
    (hrest : wordsFrom? ((before ++ k.text) ++ rest) next (Chunk.place (before ++ k.text).size l) =
      some words) :
    wordsFrom? (before ++ (k.text ++ rest)) g (Chunk.place before.size (k :: l)) = some words := by
  have hslice : Text.slice? (before ++ (k.text ++ rest)) before.size
      (before.size + k.text.size) = some k.text :=
    Text.slice?_eq_some_iff.2 ⟨before, rest, rfl, rfl, rfl⟩
  rw [Chunk.place, wordsFrom?, hslice, Option.bind_some, hadd, Option.bind_some, ← Text.size_append,
    ← List.append_assoc]
  exact hrest

theorem wordsFrom?_chunks (t : Text) : ∀ (before : Text) (g : Gathered),
    wordsFrom? (before ++ t) g (Chunk.place before.size (chunks t)) =
      some (g.finish (gather (lexemes t))) := by
  fun_induction chunks t with
  | case1 =>
    intro before g
    rw [Chunk.place, wordsFrom?, lexemes, gather, Gathered.finish_nil]
  | case2 c rest hc ih =>
    intro before g
    have hrun : ∀ d ∈ rest.takeWhile isSeparator, isSeparator d := fun d hd =>
      List.mem_takeWhile_imp hd
    have hgather := gather_separators hc hrun (rest.dropWhile isSeparator)
    have htext : before ++ c :: rest = before ++
        ((c :: rest.takeWhile isSeparator) ++ rest.dropWhile isSeparator) := by
      rw [List.cons_append, List.takeWhile_append_dropWhile]
    rw [List.takeWhile_append_dropWhile] at hgather
    rw [htext, hgather, splitWords_eq, ← Gathered.finish_split]
    exact wordsFrom?_place_cons rfl (ih _ _)
  | case3 c rest hc hq inner after h ih =>
    intro before g
    have htext : before ++ c :: rest = before ++ ((c :: inner ++ [c]) ++ after) := by
      rw [closeQuote?_eq_append h]
      simp
    rw [htext, lexemes_quoted hq h, gather, ← Gathered.finish_glue]
    exact wordsFrom?_place_cons (g.add?_quoted hq inner) (ih _ _)
  | case4 c rest hc hq h =>
    intro before g
    have hgather : gather (lexemes (c :: rest)) =
        (some ((c :: rest) ++ Option.getD none []), []) := by
      rw [lexemes_unclosed hq h]
      rfl
    have hlast : wordsFrom? (before ++ ((c :: rest) ++ [])) g
        (Chunk.place before.size [⟨.stray, c :: rest⟩]) = some (g.glue (c :: rest)).all :=
      wordsFrom?_place_cons rfl rfl
    rw [List.append_nil] at hlast
    rw [hlast, hgather, ← Gathered.finish_glue g (c :: rest) (none, []), Gathered.finish_nil]
  | case5 c rest hc hq ih =>
    intro before g
    have hplain : ∀ d ∈ c :: rest.takeWhile isPlain, ¬isSeparator d ∧ ¬isQuote d := by
      rw [List.forall_mem_cons]
      refine ⟨⟨hc, hq⟩, fun d hd => ?_⟩
      have := List.mem_takeWhile_imp hd
      simpa [isPlain] using this
    have hreads := readsAs_plain (List.cons_ne_nil _ _) hplain (rest.dropWhile isPlain)
    have htext : c :: rest = (c :: rest.takeWhile isPlain) ++ rest.dropWhile isPlain := by
      rw [List.cons_append, List.takeWhile_append_dropWhile]
    rw [htext, hreads, ← Gathered.finish_glue]
    exact wordsFrom?_place_cons rfl (ih _ _)

/-- The words that are sliced out of a body are its words. -/
theorem wordsAt?_tokens (body : Text) : wordsAt? body (tokens body) = some (splitWords body) :=
  wordsFrom?_chunks body [] ⟨[], none⟩

end Folio
