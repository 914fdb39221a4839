import ObjectLayout.Rejection
import ObjectLayout.Target

/-!
# The frontier of a placement

While the parts of a type are placed, everything placed so far ends at the frontier, and its
alignment is the largest asked for so far. Each move is checked against the address space; the
only way for a move to fail is that the type grows out of it.
-/
namespace ObjectLayout

/-- The setting in which one type is placed. -/
structure Site where
  /-- The name of the type, for the report of an overflow. -/
  owner : String
  target : Target
  /-- The packing clamp in force. -/
  packing : Option Nat
  deriving DecidableEq

namespace Site

/-- The alignment granted to a part that asks for `align`. -/
def granted (site : Site) (align : Nat) : Nat :=
  match site.packing with
  | some bound => min align bound
  | none => align

/-- An offset that must exist for the type to have a layout. -/
def require (site : Site) : Option Nat → Except Rejection Nat
  | some offset => .ok offset
  | none => .error (.sizeOverflow site.owner)

theorem require_eq_ok {site : Site} {x : Option Nat} {n : Nat} :
    site.require x = .ok n ↔ x = some n := by
  cases x <;> simp [require]

end Site

structure Frontier where
  offset : Nat := 0
  align : Nat := 1
  deriving DecidableEq

namespace Frontier

/-- Let a part count for the alignment of the type without moving. -/
def regard (site : Site) (frontier : Frontier) (align : Nat) : Frontier :=
  { frontier with align := max frontier.align (site.granted align) }

/-- Round the frontier up without a bearing on the alignment of the type. -/
def roundTo (site : Site) (frontier : Frontier) (align : Nat) : Except Rejection Frontier := do
  let offset ← site.require (site.target.roundUp? frontier.offset (site.granted align))
  return { frontier with offset := offset }

/-- Round the frontier up for a part that counts for the alignment of the type. -/
def alignFor (site : Site) (frontier : Frontier) (align : Nat) : Except Rejection Frontier :=
  (frontier.regard site align).roundTo site align

/-- Take `bytes` behind the frontier. -/
def advance (site : Site) (frontier : Frontier) (bytes : Nat) : Except Rejection Frontier := do
  let offset ← site.require (site.target.offset? (frontier.offset + bytes))
  return { frontier with offset := offset }

theorem roundTo_eq_ok {site : Site} {frontier next : Frontier} {align : Nat} :
    frontier.roundTo site align = .ok next ↔
      site.target.holds (roundUp frontier.offset (site.granted align)) = true ∧
        next = { frontier with offset := roundUp frontier.offset (site.granted align) } := by
  unfold roundTo Target.roundUp? Target.offset?
  by_cases h : site.target.holds (roundUp frontier.offset (site.granted align)) = true
  · simp only [h, if_true, true_and]
    exact ⟨fun e => (Except.ok.inj e).symm, fun e => congrArg Except.ok e.symm⟩
  · simp only [h, Bool.false_eq_true, if_false, false_and, iff_false]
    intro e
    cases e

theorem advance_eq_ok {site : Site} {frontier next : Frontier} {bytes : Nat} :
    frontier.advance site bytes = .ok next ↔
      site.target.holds (frontier.offset + bytes) = true ∧
        next = { frontier with offset := frontier.offset + bytes } := by
  unfold advance Target.offset?
  by_cases h : site.target.holds (frontier.offset + bytes) = true
  · simp only [h, if_true, true_and]
    exact ⟨fun e => (Except.ok.inj e).symm, fun e => congrArg Except.ok e.symm⟩
  · simp only [h, Bool.false_eq_true, if_false, false_and, iff_false]
    intro e
    cases e

end Frontier

end ObjectLayout
