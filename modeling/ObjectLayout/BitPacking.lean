import ObjectLayout.Alignment

/-!
# Packing bit-fields

A run of bit-fields that share a storage unit becomes one region of whole units. Members take
bit positions in order; a member that would straddle a unit starts the next unit, and a member
of width zero closes the current unit. The position therefore never moves back.
-/
namespace ObjectLayout

structure BitItem where
  name : String
  width : Nat
  deriving DecidableEq

/-- A member of a run with its first bit, counted from the start of the region. -/
structure BitPlace where
  name : String
  bitOffset : Nat
  width : Nat
  deriving DecidableEq

structure PackedRun where
  /-- The bytes of the region, a whole number of units. -/
  size : Nat
  /-- The storage unit. -/
  align : Nat
  /-- One entry per member, in order. -/
  bits : List BitPlace
  deriving DecidableEq

/-- Bits can be packed only into units of at least one byte. -/
inductive PackingError where
  | emptyUnit
  deriving DecidableEq

def PackingError.message : PackingError → String
  | .emptyUnit => "bit-field storage unit must be at least one byte"

namespace BitPacking

/-- The first bit of a member of the given width when `position` bits are taken. -/
def start (unitBits position width : Nat) : Nat :=
  if width = 0 ∨ unitBits < position % unitBits + width then nextMultiple position unitBits
  else position

/-- Give every member its first bit, beginning at `position`. -/
def assign (unitBits : Nat) : Nat → List BitItem → List BitPlace
  | _, [] => []
  | position, member :: rest =>
    let first := start unitBits position member.width
    ⟨member.name, first, member.width⟩ :: assign unitBits (first + member.width) rest

/-- The number of bits taken when every member is placed, beginning at `position`. -/
def finish (unitBits : Nat) : Nat → List BitItem → Nat
  | position, [] => position
  | position, member :: rest =>
    finish unitBits (start unitBits position member.width + member.width) rest

theorem length_assign (unitBits position : Nat) (members : List BitItem) :
    (assign unitBits position members).length = members.length := by
  induction members generalizing position with
  | nil => rfl
  | cons member rest ih => simp [assign, ih]

end BitPacking

namespace PackedRun

/-- Pack members into units of `unit` bytes, which must be positive. -/
def ofMembers (unit : Nat) (members : List BitItem) : PackedRun :=
  { size := nextMultiple (BitPacking.finish (unit * 8) 0 members) (unit * 8) / 8
    align := unit
    bits := BitPacking.assign (unit * 8) 0 members }

/-- Pack members into units of `unit` bytes, refusing empty units. -/
def pack (unit : Nat) (members : List BitItem) : Except PackingError PackedRun :=
  if unit = 0 then .error .emptyUnit else .ok (ofMembers unit members)

/-- The first bit of the first member of a name. -/
def bitOffset? (run : PackedRun) (name : String) : Option Nat :=
  (run.bits.find? fun bit => bit.name == name).map BitPlace.bitOffset

end PackedRun

end ObjectLayout
