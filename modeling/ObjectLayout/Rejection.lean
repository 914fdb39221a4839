import ObjectLayout.TypeId

/-!
# Rejected types

The causes for which a type has no layout. All but `sizeOverflow` are found before anything is
placed.
-/
namespace ObjectLayout

/-- The part of a type whose alignment is at fault. -/
inductive AlignedPart where
  | wholeType
  | packingClamp
  | field (name : String)
  deriving DecidableEq

def AlignedPart.text : AlignedPart → String
  | .wholeType => "the type's forced alignment"
  | .packingClamp => "the packing clamp"
  | .field name => s!"field `{name}`"

inductive Rejection where
  | unknownType (id : TypeId)
  | undefinedType (id : TypeId) (name : String)
  | cyclicHierarchy (type : String)
  | nonPowerOfTwoAlignment (type : String) (part : AlignedPart) (align : Nat)
  | alignmentExceedsMaximum (type : String) (part : AlignedPart) (align maximum : Nat)
  | zeroSizedField (type field : String)
  | duplicateField (type field : String)
  | bitWidthTooWide (type field : String) (width storageBits : Nat)
  | nonScalarBitField (type field : String)
  | alignedBitField (type field : String)
  | forcedAlignmentAndPacking (type : String)
  | forcedAlignmentTooSmall (type : String) (forced required : Nat)
  | sizeOverflow (type : String)
  deriving DecidableEq

def Rejection.message : Rejection → String
  | .unknownType id => s!"type index {id.text} does not belong to the pool"
  | .undefinedType id name => s!"type `{name}` ({id.text}) is declared but never defined"
  | .cyclicHierarchy type => s!"type `{type}` contains itself through its bases or members"
  | .nonPowerOfTwoAlignment type part align =>
    s!"`{type}`: alignment {align} of {part.text} is not a power of two"
  | .alignmentExceedsMaximum type part align maximum =>
    s!"`{type}`: alignment {align} of {part.text} exceeds the target maximum {maximum}"
  | .zeroSizedField type field => s!"`{type}`: field `{field}` has zero size"
  | .duplicateField type field => s!"`{type}`: field `{field}` is declared more than once"
  | .bitWidthTooWide type field width storageBits =>
    s!"`{type}`: bit-field `{field}` is {width} bits wide but its storage unit holds "
      ++ toString storageBits
  | .nonScalarBitField type field =>
    s!"`{type}`: bit-field `{field}` must have a scalar storage type"
  | .alignedBitField type field =>
    s!"`{type}`: bit-field `{field}` cannot carry a forced alignment"
  | .forcedAlignmentAndPacking type =>
    s!"`{type}`: forced alignment and packing clamp cannot both be set"
  | .forcedAlignmentTooSmall type forced required =>
    s!"`{type}`: forced alignment {forced} is below the {required} its members require"
  | .sizeOverflow type => s!"`{type}`: size does not fit in 64 bits"

end ObjectLayout
