import ObjectLayout.Frontier
import ObjectLayout.Layout

/-!
# Embedding bases

A base lends its core to the type above it: the dispatch slot, owned bases and fields, without
the shared bases, which are placed once in the complete object. A core without data takes no
room and shares its address with whatever follows, but its alignment still counts. An owned base
without data is passed over otherwise; a shared one still brings its slot, which it can have only
where a slot has no size.
-/
namespace ObjectLayout

/-- The part of a type that is embedded where the type is a base. -/
structure Core where
  /-- The end of the data of the core. -/
  dataSize : Nat
  /-- The data size rounded to the alignment of the core; zero for a core without data. -/
  size : Nat
  align : Nat
  /-- The dispatch slot within the core. -/
  dispatch : Option Nat
  deriving DecidableEq

/-- The slot that a core brings where it is embedded. -/
def Core.brings (core : Core) (sharing : Sharing) : Option Nat :=
  if core.dataSize = 0 ∧ sharing = .owned then none else core.dispatch

/-- Round off a core whose parts end at `frontier`. -/
def Core.close (site : Site) (frontier : Frontier) (dispatch : Option Nat) :
    Except Rejection Core := do
  let size ← if frontier.offset = 0 then pure 0
    else site.require (site.target.roundUp? frontier.offset frontier.align)
  return ⟨frontier.offset, size, frontier.align, dispatch⟩

/-- A type under construction: its frontier, its dispatch slot and its bases so far. -/
structure Draft where
  frontier : Frontier := {}
  dispatch : Option Nat := none
  bases : List PlacedBase := []
  deriving DecidableEq

/-- A core with data brings its slot however it is embedded. -/
@[simp] theorem Core.brings_of_pos {core : Core} (h : 0 < core.dataSize) (sharing : Sharing) :
    core.brings sharing = core.dispatch := by
  simp [brings, Nat.ne_of_gt h]

/-- So does a core that has a slot only with data. -/
theorem Core.brings_of_isSome {core : Core} (h : core.dispatch.isSome → 0 < core.dataSize)
    (sharing : Sharing) : core.brings sharing = core.dispatch := by
  cases hslot : core.dispatch with
  | none => simp [brings, hslot]
  | some slot => rw [brings_of_pos (h (by simp [hslot])), hslot]

/-- A slot that is brought is the slot of the core. -/
theorem Core.dispatch_of_brings {core : Core} {sharing : Sharing} {slot : Nat}
    (h : core.brings sharing = some slot) : core.dispatch = some slot := by
  unfold brings at h
  split at h
  · cases h
  · exact h

namespace Draft

/-- Embed the core of a base, which takes `bytes` behind the frontier. The first slot that a
base brings becomes the slot of a type that has none. -/
def embed (site : Site) (draft : Draft) (type : TypeId) (sharing : Sharing) (core : Core)
    (bytes : Nat) : Except Rejection Draft :=
  if core.dataSize = 0 then
    .ok {
      frontier := draft.frontier.regard site core.align
      dispatch := draft.dispatch.or ((core.brings sharing).map (draft.frontier.offset + ·))
      bases := draft.bases ++ [⟨type, draft.frontier.offset, 0, sharing⟩] }
  else do
    let start ← draft.frontier.alignFor site core.align
    let next ← start.advance site bytes
    return {
      frontier := next
      dispatch := draft.dispatch.or ((core.brings sharing).map (start.offset + ·))
      bases := draft.bases ++ [⟨type, start.offset, core.size, sharing⟩] }

end Draft

end ObjectLayout
