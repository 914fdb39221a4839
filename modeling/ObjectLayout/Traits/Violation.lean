import ObjectLayout.Composite

/-!
# Broken rules

The rules of triviality and of standard layout that a type can break. A type has a trait
exactly when it breaks none of its rules.
-/
namespace ObjectLayout

inductive Violation where
  /-- The type itself introduces dispatch. -/
  | dispatchPointer
  | sharedBase (base : TypeId)
  | userProvided (members : SpecialMembers)
  | defaultMemberInit (field : String)
  | nonTrivialBase (base : TypeId)
  | nonTrivialField (field : String)
  | nonStandardBase (base : TypeId)
  | nonStandardField (field : String)
  /-- The fields have more than one access. -/
  | mixedAccess (groups : List Access)
  /-- More than one type of the hierarchy declares data. -/
  | fieldsInMultipleLayers (layers : List TypeId)
  /-- An owned base is reached along more than one path. -/
  | repeatedBase (base : TypeId)
  | firstFieldIsBase (field : String) (base : TypeId)
  /-- The type, or a base of it, is not defined. -/
  | unresolved (type : TypeId)
  /-- The type contains itself. -/
  | cyclic (type : TypeId)
  deriving DecidableEq

namespace Violation

/-- The violation as a list, if it is there. -/
def given (present : Bool) (violation : Violation) : List Violation :=
  if present then [violation] else []

def text : Violation → String
  | dispatchPointer => "introduces a dispatch pointer"
  | sharedBase base => s!"has shared base {base.text}"
  | userProvided members => s!"user-provided special members {members.text}"
  | defaultMemberInit field => s!"field `{field}` has a default member initializer"
  | nonTrivialBase base => s!"base {base.text} is not trivial"
  | nonTrivialField field => s!"field `{field}` is not trivial"
  | nonStandardBase base => s!"base {base.text} is not standard layout"
  | nonStandardField field => s!"field `{field}` is not standard layout"
  | mixedAccess groups =>
    "fields mix access groups:" ++ String.join (groups.map fun access => " " ++ access.text)
  | fieldsInMultipleLayers layers =>
    "fields are declared in more than one layer:"
      ++ String.join (layers.map fun layer => " " ++ layer.text)
  | repeatedBase base => s!"owned base {base.text} is reached along several paths"
  | firstFieldIsBase field base => s!"first field `{field}` has the type of base {base.text}"
  | unresolved type => s!"type {type.text} is not defined"
  | cyclic type => s!"type {type.text} contains itself"

end Violation

end ObjectLayout
