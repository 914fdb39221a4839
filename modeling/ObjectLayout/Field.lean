import ObjectLayout.TypeId

/-!
# Fields

A field stores a scalar, a pointer or another composite. A bit width turns it into a bit-field
in storage units of its scalar size; width zero makes it a marker, which closes the current
unit and is no member of the type.
-/
namespace ObjectLayout

/-- Who may use a field or a base. Placement ignores it. -/
inductive Access where
  | pub
  | prot
  | priv
  deriving DecidableEq

def Access.text : Access → String
  | .pub => "public"
  | .prot => "protected"
  | .priv => "private"

inductive FieldType where
  /-- A scalar with its size and natural alignment in bytes. -/
  | scalar (size align : Nat)
  /-- A data pointer, whose size and alignment the target gives. -/
  | pointer
  /-- A nested member laid out by another type of the table. -/
  | composite (id : TypeId)
  deriving DecidableEq

namespace FieldType

def char : FieldType := .scalar 1 1
def bool : FieldType := .scalar 1 1
def short : FieldType := .scalar 2 2
def int : FieldType := .scalar 4 4
def longLong : FieldType := .scalar 8 8
def float : FieldType := .scalar 4 4
def double : FieldType := .scalar 8 8

def composite? : FieldType → Option TypeId
  | .composite id => some id
  | _ => none

end FieldType

structure Field where
  /-- Empty for unnamed members. -/
  name : String
  type : FieldType
  bitWidth : Option Nat := none
  /-- A member-level alignment; it can only raise the natural one. -/
  forcedAlign : Option Nat := none
  access : Access := .pub
  hasInitializer : Bool := false
  deriving DecidableEq

namespace Field

def isAnonymous (field : Field) : Bool := field.name.isEmpty

def isBitField (field : Field) : Bool := field.bitWidth.isSome

/-- A bit-field of width zero is a marker and holds no data. -/
def isMarker (field : Field) : Bool := field.bitWidth == some 0

/-- The bytes of one storage unit of a bit-field, which is its scalar size. -/
def storageUnit (field : Field) : Nat :=
  match field.type with
  | .scalar size _ => size
  | .pointer | .composite _ => 1

end Field

end ObjectLayout
