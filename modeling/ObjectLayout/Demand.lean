import ObjectLayout.Alignment
import ObjectLayout.Composite
import ObjectLayout.Rejection
import ObjectLayout.Target

/-!
# What a type demands of its alignment

A composite alone decides a list of demands: alignments that its own parts ask for, types whose
alignment it inherits, and defects. The order of the list is the order in which defects are
reported, so a type is locally well formed exactly when no defect is among its demands.
-/
namespace ObjectLayout

inductive Demand where
  /-- A part asks for this alignment. -/
  | align (bytes : Nat)
  /-- A base or member asks for the alignment of its type. -/
  | nested (id : TypeId)
  | defect (rejection : Rejection)
  deriving DecidableEq

/-- Ask for a directive's alignment, which must be a power of two. -/
def Demand.forced (owner : String) (part : AlignedPart) (align : Nat) : Demand :=
  if isPowerOfTwo align then .align align
  else .defect (.nonPowerOfTwoAlignment owner part align)

namespace Field

/-- Ask for a natural alignment, a power of two that the target bounds. -/
def naturalDemand (target : Target) (owner : String) (field : Field) (align : Nat) : Demand :=
  if !isPowerOfTwo align then
    .defect (.nonPowerOfTwoAlignment owner (.field field.name) align)
  else if target.maxNaturalAlign < align then
    .defect (.alignmentExceedsMaximum owner (.field field.name) align target.maxNaturalAlign)
  else .align align

/-- A bit-field is aligned to its unit and nothing else; a marker only has to be sound. -/
def bitDemands (target : Target) (owner : String) (field : Field) (size width : Nat) :
    List Demand :=
  match field.naturalDemand target owner size with
  | .align bytes =>
    if size * 8 < width then [.defect (.bitWidthTooWide owner field.name width (size * 8))]
    else if width = 0 then [] else [.align bytes]
  | fault => [fault]

/-- What the type of a field demands, before any forced alignment. -/
def typeDemands (target : Target) (owner : String) (field : Field) : List Demand :=
  match field.type, field.bitWidth with
  | .scalar size align, bitWidth =>
    if size = 0 then [.defect (.zeroSizedField owner field.name)]
    else match bitWidth with
      | none => [field.naturalDemand target owner align]
      | some width => field.bitDemands target owner size width
  | .pointer, none => [.align target.pointerSize]
  | .composite id, none => [.nested id]
  | .pointer, some _ | .composite _, some _ => [.defect (.nonScalarBitField owner field.name)]

def demands (target : Target) (owner : String) (field : Field) : List Demand :=
  match field.bitWidth, field.forcedAlign with
  | some _, some _ => [.defect (.alignedBitField owner field.name)]
  | _, none => field.typeDemands target owner
  | none, some forced =>
    field.typeDemands target owner ++ [.forced owner (.field field.name) forced]

end Field

namespace Composite

/-- The demands of fields that follow fields named `seen`; a name is given only once. -/
def fieldDemands (target : Target) (owner : String) : List String → List Field → List Demand
  | _, [] => []
  | seen, field :: rest =>
    (if !field.isAnonymous && seen.contains field.name then
        [.defect (.duplicateField owner field.name)] else [])
      ++ field.demands target owner
      ++ fieldDemands target owner (field.name :: seen) rest

/-- What is wrong with the directives alone. -/
def directiveDefects (c : Composite) : List Demand :=
  (if c.forcedAlign.isSome && c.packing.isSome then
      [.defect (.forcedAlignmentAndPacking c.name)] else [])
    ++ faults .wholeType c.forcedAlign ++ faults .packingClamp c.packing
where
  faults (part : AlignedPart) : Option Nat → List Demand
    | none => []
    | some align =>
      if isPowerOfTwo align then [] else [.defect (.nonPowerOfTwoAlignment c.name part align)]

/-- All demands of a type in the order in which they are looked at: directives, the dispatch
slot, bases, fields. -/
def demands (target : Target) (c : Composite) : List Demand :=
  c.directiveDefects
    ++ (if c.introducesDispatch then [.align target.pointerSize] else [])
    ++ c.bases.map (fun base => .nested base.type)
    ++ fieldDemands target c.name [] c.fields

/-- The alignment of a type whose parts require `required`. -/
def settleAlign (c : Composite) (required : Nat) : Except Rejection Nat :=
  match c.forcedAlign, c.packing with
  | some forced, _ =>
    if forced < required then .error (.forcedAlignmentTooSmall c.name forced required)
    else .ok forced
  | none, some clamp => .ok (min required clamp)
  | none, none => .ok required

end Composite

end ObjectLayout
