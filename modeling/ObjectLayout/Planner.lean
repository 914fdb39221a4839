import ObjectLayout.Acceptance
import ObjectLayout.Placement
import ObjectLayout.Traits.Verdicts

/-!
# Planning layouts

A planner answers layout queries about one table for one target and keeps what it has worked
out: the accepted types with their alignments, the placements, and the verdicts that decide
about tail padding. A query first accepts the type and all it reaches; then every type accepted
since the last placement is placed, oldest first, so that a type comes after all that it refers
to. A type that outgrows the address space is remembered as such. Placing a type first and what it
refers to on demand gives the same answers (`TypeTable.layouts_on_demand`).
-/
namespace ObjectLayout

/-- The placements worked out so far, with the memory of the verdicts they needed. -/
structure Placements where
  placed : Memo (Except Rejection Placed) := {}
  traits : TraitMemory := {}

namespace Placements

/-- The placement of a type that has been reached before; every other type counts as
undefined. -/
def part (placements : Placements) (table : TypeTable) (id : TypeId) : Except Rejection Placed :=
  match placements.placed.get? id with
  | some answer => answer
  | none => .error (.undefinedType id ((table.name? id).getD ""))

/-- Learn the verdict on a type where placement may ask for it. -/
def learn (placements : Placements) (table : TypeTable) (target : Target) (id : TypeId) :
    TraitMemory :=
  match target.tailPadding with
  | .keep => placements.traits
  | .reuse => ((table.classify id).run placements.traits).2

/-- Place one more type behind all that it refers to. -/
def add (placements : Placements) (table : TypeTable) (target : Target) (id : TypeId) :
    Placements :=
  match table.get? id with
  | none => placements
  | some c =>
    let traits := placements.learn table target id
    { placed := placements.placed.insert id
        (c.place target traits.knowsPod (placements.part table))
      traits := traits }

/-- Place the accepted types, newest first in the list, that are not placed yet. -/
def catchUp (placements : Placements) (table : TypeTable) (target : Target) :
    List (TypeId × Nat) → Placements
  | [] => placements
  | (id, _) :: older =>
    if (placements.placed.get? id).isSome then placements
    else (catchUp placements table target older).add table target id

end Placements

structure Planner where
  table : TypeTable
  target : Target
  accepted : Memo Nat := {}
  placements : Placements := {}

namespace Planner

def new (table : TypeTable) (target : Target) : Planner := { table := table, target := target }

/-- The layout of a type, or why it has none. -/
def layout (id : TypeId) : StateM Planner (Except Rejection Layout) := fun planner =>
  match (planner.table.accept planner.target id).run planner.accepted with
  | .error rejection accepted => (.error rejection, { planner with accepted := accepted })
  | .ok _ accepted =>
    let placements := planner.placements.catchUp planner.table planner.target accepted.entries
    ((placements.part planner.table id).map Placed.layout,
      { planner with accepted := accepted, placements := placements })

end Planner

namespace TypeTable

/-- The layout of a type worked out on its own. -/
def layout (table : TypeTable) (target : Target) (id : TypeId) : Except Rejection Layout :=
  ((Planner.layout id).run (Planner.new table target)).1

end TypeTable

end ObjectLayout
