import ObjectLayout.Traits.Ancestry

/-!
# Assessing one type

The violations of one composite follow from its own description, its ancestry, and the verdicts
on the types of its bases and fields. Their order is the order in which they are reported.
-/
namespace ObjectLayout
open Violation (given)

/-- Whether a type is trivial and whether it has standard layout. -/
structure Verdict where
  trivial : Bool
  standardLayout : Bool
  deriving DecidableEq

namespace Verdict

/-- Plain old data: scalars and pointers, and what is both trivial and of standard layout. -/
def pod : Verdict := ⟨true, true⟩

def neither : Verdict := ⟨false, false⟩

def isPod (verdict : Verdict) : Bool := verdict.trivial && verdict.standardLayout

end Verdict

/-- The rules that a type breaks. -/
structure Assessment where
  trivial : List Violation
  standardLayout : List Violation
  deriving DecidableEq

namespace Assessment

/-- A trait holds when none of its rules is broken. -/
def verdict (assessment : Assessment) : Verdict :=
  ⟨assessment.trivial.isEmpty, assessment.standardLayout.isEmpty⟩

/-- Both traits fail for one reason. -/
def both (reason : Violation) : Assessment := ⟨[reason], [reason]⟩

@[simp] theorem verdict_both (reason : Violation) : (both reason).verdict = .neither := rfl

end Assessment

namespace Composite

/-- Why a type is not trivial. -/
def trivialViolations (c : Composite) (bases : List (Base × Verdict))
    (fields : List (Field × Verdict)) : List Violation :=
  given c.introducesDispatch .dispatchPointer
    ++ bases.flatMap (fun (base, verdict) =>
      given base.isShared (.sharedBase base.type)
        ++ given (!verdict.trivial) (.nonTrivialBase base.type))
    ++ given (!c.userProvided.isEmpty) (.userProvided c.userProvided)
    ++ fields.flatMap (fun (field, verdict) =>
      given field.hasInitializer (.defaultMemberInit field.name)
        ++ given (!verdict.trivial) (.nonTrivialField field.name))

/-- The first field that holds data must not have the type of a base. -/
def firstFieldViolations (c : Composite) (ancestry : Ancestry) : List Violation :=
  match c.members.head? with
  | some ⟨name, .composite id, _, _, _, _⟩ =>
    given (ancestry.bases.contains id) (.firstFieldIsBase name id)
  | _ => []

/-- Why a type has no standard layout. -/
def standardLayoutViolations (c : Composite) (ancestry : Ancestry)
    (bases : List (Base × Verdict)) (fields : List (Field × Verdict)) : List Violation :=
  given c.introducesDispatch .dispatchPointer
    ++ bases.flatMap (fun (base, verdict) =>
      given base.isShared (.sharedBase base.type)
        ++ given (!verdict.standardLayout) (.nonStandardBase base.type))
    ++ fields.flatMap (fun (field, verdict) =>
      given (!verdict.standardLayout) (.nonStandardField field.name))
    ++ given (1 < c.accessGroups.length) (.mixedAccess c.accessGroups)
    ++ given (1 < ancestry.dataLayers.length) (.fieldsInMultipleLayers ancestry.dataLayers)
    ++ ancestry.repeatedBase?.toList.map .repeatedBase
    ++ c.firstFieldViolations ancestry

def assessment (c : Composite) (ancestry : Ancestry) (bases : List (Base × Verdict))
    (fields : List (Field × Verdict)) : Assessment :=
  ⟨c.trivialViolations bases fields, c.standardLayoutViolations ancestry bases fields⟩

end Composite

end ObjectLayout
