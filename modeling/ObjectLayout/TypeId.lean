/-!
# Handles of types

A type is known by its position in the table that holds it. Two references name the same type
exactly when their positions agree; descriptions are never compared to decide that.
-/
namespace ObjectLayout

/-- The position of a type in its table. -/
structure TypeId where
  index : Nat
  deriving DecidableEq

namespace TypeId

/-- A handle is written as its position behind a number sign. -/
def text (id : TypeId) : String := s!"#{id.index}"

theorem ext_index {a b : TypeId} (h : a.index = b.index) : a = b := by
  cases a; cases b; simp_all

end TypeId

end ObjectLayout
