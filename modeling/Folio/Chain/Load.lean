import Folio.Chain.Source
import Folio.Template.Segment

/-!
# Steps of a walk along a chain

A walk goes from a document to its parent, to the parent of that, and so on.
Its `Trail` remembers the paths it took and the identities of the documents, so
that it stops when it meets a document again. `unseen_load_lt` is why every walk
ends: each step uses up one document of the source.
-/

namespace Folio

/-- Why a walk stopped before it reached a document without a parent. -/
inductive ChainError where
  | cycle (path : Path) (chain : List Path)
  | unreadable (path : Path) (reason : ReadError)
  | segment (e : SegmentError)
deriving DecidableEq

/-- The paths of a walk so far, and the identities of their documents. -/
structure Trail where
  chain : List Path
  seen : List NormalPath

namespace Trail

/-- The trail of a walk that has not begun. -/
def empty : Trail :=
  ⟨[], []⟩

/-- The trail after one more path. -/
def push (trail : Trail) (p : Path) (identity : NormalPath) : Trail :=
  ⟨trail.chain ++ [p], identity :: trail.seen⟩

end Trail

namespace Source

/-- Reads the document at `p` unless the walk has met it before. -/
def load (s : Source) (p : Path) (trail : Trail) : Except ChainError (Document × Trail) :=
  if s.identity p ∈ trail.seen then .error (.cycle p trail.chain)
  else
    match s.read p with
    | .error reason => .error (.unreadable p reason)
    | .ok text => .ok (⟨p, text⟩, trail.push p (s.identity p))

/-- The number of documents that a walk has not met. -/
def unseen (s : Source) (trail : Trail) : Nat :=
  s.documents.countP (· ∉ trail.seen)

theorem countP_notMem_cons_lt {α : Type} [DecidableEq α] {x : α} {l seen : List α}
    (hx : x ∈ l) (hs : x ∉ seen) :
    l.countP (· ∉ x :: seen) < l.countP (· ∉ seen) := by
  have hle : ∀ l : List α, l.countP (· ∉ x :: seen) ≤ l.countP (· ∉ seen) := fun l =>
    List.countP_mono_left fun y _ hy => by simp at hy ⊢; exact hy.2
  induction l with
  | nil => cases hx
  | cons y rest ih =>
    rcases List.mem_cons.1 hx with rfl | hx
    · have := hle rest
      simp [hs] at this ⊢
      omega
    · have := ih hx
      by_cases hyx : y = x <;> by_cases hys : y ∈ seen <;>
        simp [List.countP_cons, hyx, hys] at this ⊢ <;> omega

/-- A document that was loaded was not met before. -/
theorem unseen_load_lt {s : Source} {p : Path} {trail trail' : Trail} {doc : Document}
    (h : s.load p trail = .ok (doc, trail')) : s.unseen trail' < s.unseen trail := by
  unfold load at h
  split at h
  · cases h
  · rename_i hseen
    split at h
    · cases h
    · rename_i text hread
      cases h
      exact countP_notMem_cons_lt (s.identity_mem hread) hseen

end Source

/-- Paths as a message lists them. -/
def displayChain (chain : List Path) : String :=
  " -> ".intercalate (chain.map fun p => "`" ++ p.display ++ "`")

/-- The wording of a reason to stop. -/
def ChainError.message : ChainError → String
  | .cycle path chain =>
    let shown := path.display
    let listed := displayChain chain
    s!"inheritance cycle detected at `{shown}` (chain: {listed})"
  | .unreadable path reason =>
    let shown := path.display
    let why := reason.message
    s!"failed to read template source `{shown}`: {why}"
  | .segment e => e.message

/-- The diagnostic code of a reason to stop. -/
def ChainError.code : ChainError → String
  | .cycle _ _ => "stencil::inherit_cycle"
  | .unreadable _ _ => "stencil::source_read"
  | .segment e => e.code

/-- What can be done about a reason to stop. -/
def ChainError.help? : ChainError → Option String
  | .cycle _ _ => some "a template cannot inherit from itself or from one of its descendants"
  | .unreadable _ _ => none
  | .segment e => e.help?

end Folio
