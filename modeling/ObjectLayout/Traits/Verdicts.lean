import ObjectLayout.Traits.Assessment

/-!
# Classification

Verdicts are remembered per type, and every lookup of a base or field goes through the memory,
so its own reasons are summed up in one violation of the type above. Classification never
fails: an undefined type, and one that is met again while it is being assessed, has neither
trait. What is remembered of a type on a cycle depends on where the walk entered the cycle.
-/
namespace ObjectLayout

/-- What earlier questions have left behind. -/
structure TraitMemory where
  verdicts : Memo Verdict := {}
  ancestries : AncestryMemo := {}

namespace TraitMemory

def empty : TraitMemory := {}

/-- The remembered verdict calls the type plain old data. -/
def knowsPod (memory : TraitMemory) (id : TypeId) : Bool :=
  (memory.verdicts.get? id).any Verdict.isPod

end TraitMemory

/-- A computation that reads and extends the memory of verdicts. -/
abbrev Classified := StateM TraitMemory

namespace Classified

/-- The verdict on a type: the remembered one, or else that of an assessment, remembered from
now on. -/
def verdictOf (assess : TypeId → Classified Assessment) (id : TypeId) : Classified Verdict := do
  match (← get).verdicts.get? id with
  | some known => return known
  | none =>
    let verdict := (← assess id).verdict
    modify fun memory => { memory with verdicts := memory.verdicts.insert id verdict }
    return verdict

/-- Scalars and pointers are plain old data; a nested member is what its type is. -/
def fieldVerdict (assess : TypeId → Classified Assessment) : FieldType → Classified Verdict
  | .scalar _ _ | .pointer => return .pod
  | .composite id => verdictOf assess id

/-- The ancestry of a type, through the memory. -/
def ancestry (table : TypeTable) (id : TypeId) : Classified (Except Violation Ancestry) :=
  fun memory =>
    let (found, ancestries) := (table.ancestry id).run memory.ancestries
    (found, { memory with ancestries := ancestries })

end Classified

namespace TypeTable

/-- The broken rules of a type within a bound on the depth of the walk; `path` lists the types
being assessed. -/
def explainWithin (table : TypeTable) : Nat → List TypeId → TypeId → Classified Assessment
  | 0, _, id => return .both (.cyclic id)
  | room + 1, path, id => do
    match table.get? id with
    | none => return .both (.unresolved id)
    | some c =>
      if id ∈ path then return .both (.cyclic id)
      else
        match ← Classified.ancestry table id with
        | .error reason => return .both reason
        | .ok ancestry =>
          let assess := explainWithin table room (id :: path)
          let bases ← c.bases.mapM fun base => do
            return (base, ← Classified.verdictOf assess base.type)
          let fields ← c.fields.mapM fun field => do
            return (field, ← Classified.fieldVerdict assess field.type)
          return c.assessment ancestry bases fields

/-- The rules that a type breaks. The type itself is assessed anew; its bases and the types of
its fields are looked up in the memory first. -/
def explain (table : TypeTable) (id : TypeId) : Classified Assessment :=
  table.explainWithin (table.size + 1) [] id

/-- The verdict on a type, through the memory. -/
def classify (table : TypeTable) (id : TypeId) : Classified Verdict :=
  Classified.verdictOf table.explain id

end TypeTable

end ObjectLayout
