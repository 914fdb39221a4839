import ObjectLayout.Planner

/-!
# Cached layouts

A cache holds the answer for every type asked for, each worked out on its own and once. It
answers as if it kept nothing; only the count of computations shows what it keeps.
-/
namespace ObjectLayout

structure CachedLayouts where
  table : TypeTable
  target : Target
  answers : Memo (Except Rejection Layout) := {}

namespace CachedLayouts

def new (table : TypeTable) (target : Target) : CachedLayouts :=
  { table := table, target := target }

def layout (id : TypeId) : StateM CachedLayouts (Except Rejection Layout) := fun cache =>
  match cache.answers.get? id with
  | some answer => (answer, cache)
  | none =>
    let answer := cache.table.layout cache.target id
    (answer, { cache with answers := cache.answers.insert id answer })

/-- The number of layouts worked out so far, rejections included. -/
def computed (cache : CachedLayouts) : Nat := cache.answers.size

end CachedLayouts

end ObjectLayout
