import ObjectLayout.Memo
import ObjectLayout.TypeTable
import ObjectLayout.Traits.Violation

/-!
# Ancestry

What the whole inheritance graph above a type holds: its transitive bases, the types that
declare data, and how many subobjects of each base the type owns. A walk that meets an undefined
type or a cycle gives the violation instead. Answers of finished walks are remembered, failures
included; a failure at the very type asked for is not.
-/
namespace ObjectLayout

structure Ancestry where
  /-- Every transitive base once, in the order of a depth-first walk over all bases. -/
  bases : List TypeId := []
  /-- The types of the hierarchy, the type itself included, that declare data. -/
  dataLayers : List TypeId := []
  /-- The number of owned subobjects of each type, in first-seen order. Shared bases already
  bar standard layout, so what is below them is not counted. -/
  ownedCounts : List (TypeId × Nat) := []
  deriving DecidableEq

namespace Ancestry

/-- Count `number` more subobjects of a type. Numbers are exact here. A count that is kept in a word
of 32 bits agrees as long as no type owns that many subobjects of one base. -/
def addOwned (type : TypeId) (number : Nat) : List (TypeId × Nat) → List (TypeId × Nat)
  | [] => [(type, number)]
  | (seen, count) :: rest =>
    if seen = type then (seen, count + number) :: rest
    else (seen, count) :: addOwned type number rest

/-- The ancestry of a type before its bases are looked at. -/
def root (id : TypeId) (c : Composite) : Ancestry :=
  { dataLayers := if c.declaresData then [id] else [] }

/-- Take in a direct base with everything above it. -/
def extend (ancestry : Ancestry) (base : Base) (above : Ancestry) : Ancestry :=
  { bases := FirstSeen.noteAll (FirstSeen.note ancestry.bases base.type) above.bases
    dataLayers := FirstSeen.noteAll ancestry.dataLayers above.dataLayers
    ownedCounts :=
      if base.isShared then ancestry.ownedCounts
      else above.ownedCounts.foldl (fun counts entry => addOwned entry.1 entry.2 counts)
        (addOwned base.type 1 ancestry.ownedCounts) }

/-- The first base of which the type owns more than one subobject. -/
def repeatedBase? (ancestry : Ancestry) : Option TypeId :=
  (ancestry.ownedCounts.find? fun entry => 1 < entry.2).map Prod.fst

end Ancestry

/-- The memo of ancestry walks. -/
abbrev AncestryMemo := Memo (Except Violation Ancestry)

namespace TypeTable

/-- The ancestry of a type within a bound on the depth of the walk; `path` lists the types whose
walk is under way. -/
def ancestryWithin (table : TypeTable) :
    Nat → List TypeId → TypeId → StateM AncestryMemo (Except Violation Ancestry)
  | 0, _, id => return .error (.cyclic id)
  | room + 1, path, id => do
    match (← get).get? id with
    | some known => return known
    | none =>
      match table.get? id with
      | none => return .error (.unresolved id)
      | some c =>
        if id ∈ path then return .error (.cyclic id)
        else
          let found ← (c.bases.foldlM (fun ancestry base => do
              let above ← ExceptT.mk (ancestryWithin table room (id :: path) base.type)
              return ancestry.extend base above)
            (Ancestry.root id c) : ExceptT Violation (StateM AncestryMemo) Ancestry).run
          modify (·.insert id found)
          return found

/-- The ancestry of a type, or what stops the walk. -/
def ancestry (table : TypeTable) (id : TypeId) :
    StateM AncestryMemo (Except Violation Ancestry) :=
  table.ancestryWithin (table.size + 1) [] id

end TypeTable

end ObjectLayout
