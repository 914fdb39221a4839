import ObjectLayout.Composite

/-!
# Layouts

The answer for one complete type: its size and alignment, and the place of the dispatch slot, of
every field in declaration order, and of every base. Bases list the direct owned bases in
declaration order and then every shared base of the hierarchy, each once.
-/
namespace ObjectLayout

/-- The bits of a bit-field inside the storage unit at the field's offset. -/
structure BitSpan where
  offset : Nat
  width : Nat
  deriving DecidableEq

structure PlacedField where
  name : String
  /-- For a bit-field, the offset of the unit that holds its bits. -/
  offset : Nat
  /-- For a bit-field, the size of its unit; zero for a marker. -/
  size : Nat
  bits : Option BitSpan
  deriving DecidableEq

structure PlacedBase where
  type : TypeId
  offset : Nat
  /-- The bytes of the base's own part; zero for an empty base. -/
  size : Nat
  sharing : Sharing
  deriving DecidableEq

structure Layout where
  size : Nat
  align : Nat
  /-- The end of the last byte that holds data. -/
  dataSize : Nat
  dispatch : Option Nat
  fields : List PlacedField
  bases : List PlacedBase
  deriving DecidableEq

namespace Layout

def field? (layout : Layout) (name : String) : Option PlacedField :=
  layout.fields.find? fun field => !field.name.isEmpty && field.name == name

def fieldOffset? (layout : Layout) (name : String) : Option Nat :=
  (layout.field? name).map PlacedField.offset

/-- The named fields with their offsets, in declaration order. -/
def fieldOffsets (layout : Layout) : List (String × Nat) :=
  (layout.fields.filter fun field => !field.name.isEmpty).map fun field =>
    (field.name, field.offset)

/-- The offset of the first base of a type. -/
def baseOffset? (layout : Layout) (type : TypeId) : Option Nat :=
  (layout.bases.find? fun base => base.type = type).map PlacedBase.offset

def tailPadding (layout : Layout) : Nat := layout.size - layout.dataSize

def hasDispatch (layout : Layout) : Bool := layout.dispatch.isSome

end Layout

end ObjectLayout
