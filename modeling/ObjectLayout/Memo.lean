import ObjectLayout.TypeId

/-!
# Remembered answers

A memo holds answers already computed for types, newest first. A later answer for a type hides
the earlier ones, so `get?` after `insert` has the usual two cases and needs no hypothesis.
-/
namespace ObjectLayout

structure Memo (α : Type) where
  entries : List (TypeId × α) := []

namespace Memo

variable {α : Type}

def empty : Memo α := {}

def get? (memo : Memo α) (id : TypeId) : Option α :=
  (memo.entries.find? fun entry => entry.1 = id).map Prod.snd

def insert (memo : Memo α) (id : TypeId) (answer : α) : Memo α :=
  ⟨(id, answer) :: memo.entries⟩

/-- The number of insertions so far. -/
def size (memo : Memo α) : Nat := memo.entries.length

@[simp] theorem get?_empty (id : TypeId) : (empty : Memo α).get? id = none := rfl

theorem get?_insert (memo : Memo α) (id other : TypeId) (answer : α) :
    (memo.insert id answer).get? other = if id = other then some answer else memo.get? other := by
  by_cases h : id = other <;> simp [get?, insert, h]

@[simp] theorem get?_insert_self (memo : Memo α) (id : TypeId) (answer : α) :
    (memo.insert id answer).get? id = some answer := by
  simp [get?_insert]

@[simp] theorem size_insert (memo : Memo α) (id : TypeId) (answer : α) :
    (memo.insert id answer).size = memo.size + 1 := rfl

end Memo

end ObjectLayout
