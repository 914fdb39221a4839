import ObjectLayout.Alignment

/-!
# Targets

The platform parameters on which placement depends: the pointer size, the largest natural
alignment of a scalar, what may be placed in the tail padding of a base, and how many bytes can
be addressed.
-/
namespace ObjectLayout

/-- What may be placed in the tail padding of an owned base. -/
inductive TailPolicy where
  /-- An owned base occupies its full rounded size. -/
  | keep
  /-- What follows an owned base that is not plain old data starts after its last data byte. -/
  | reuse
  deriving DecidableEq

structure Target where
  /-- Size and alignment of data pointers and of the dispatch slot. -/
  pointerSize : Nat
  /-- The largest natural alignment of a scalar. It does not bound forced alignments. -/
  maxNaturalAlign : Nat
  tailPadding : TailPolicy := .keep
  /-- How many bytes can be addressed: one for every word of 64 bits. `none` lifts the bound. -/
  addressSpace : Option Nat := some 18446744073709551616
  deriving DecidableEq

namespace Target

def lp64 : Target := { pointerSize := 8, maxNaturalAlign := 16 }

def ilp32 : Target := { pointerSize := 4, maxNaturalAlign := 8 }

def ofName? (name : String) : Option Target :=
  if name == "lp64" then some lp64
  else if name == "ilp32" then some ilp32
  else none

/-- Is `n` an offset of this target? -/
def holds (target : Target) (n : Nat) : Bool := target.addressSpace.all fun bound => n < bound

/-- `n` as an offset of this target, if it is one. -/
def offset? (target : Target) (n : Nat) : Option Nat := if target.holds n then some n else none

/-- `value` rounded up to `align`, if the target can address it. -/
def roundUp? (target : Target) (value align : Nat) : Option Nat :=
  target.offset? (roundUp value align)

def text (target : Target) : String :=
  let sizes := s!"{target.pointerSize * 8}-bit pointers, max scalar alignment "
    ++ toString target.maxNaturalAlign
  match target.tailPadding with
  | .keep => sizes
  | .reuse => sizes ++ ", non-POD tail padding reused"

theorem offset?_eq_some {target : Target} {n m : Nat} :
    target.offset? n = some m ↔ target.holds n = true ∧ n = m := by
  unfold offset?
  split <;> simp_all

end Target

end ObjectLayout
