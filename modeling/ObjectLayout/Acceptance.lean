import ObjectLayout.Demand
import ObjectLayout.Memo
import ObjectLayout.TypeTable

/-!
# Acceptance

Before anything is placed, every type that the requested one reaches through bases and members
is accepted. The walk remembers the alignment of each accepted type and nothing of the types it
rejects, so a memo that outlives a rejection still holds sound types only. `path` lists the
types whose acceptance is under way; meeting one of them again is a cycle.

The path never repeats a defined type of the table, so room for one more step than the table has
entries is never exhausted.
-/
namespace ObjectLayout

/-- The memo of a walk holds the alignments of the types accepted so far. -/
abbrev Acceptance := EStateM Rejection (Memo Nat)

/-- Raise the alignment required so far to meet one demand. -/
def Demand.raise (accept : TypeId → Acceptance Nat) (required : Nat) : Demand → Acceptance Nat
  | .align bytes => pure (max required bytes)
  | .nested id => return max required (← accept id)
  | .defect rejection => throw rejection

namespace TypeTable

/-- Accept a type within a bound on the depth of the walk, giving its alignment. -/
def acceptWithin (table : TypeTable) (target : Target) :
    Nat → List TypeId → TypeId → Acceptance Nat
  | 0, _, id => throw (.cyclicHierarchy ((table.name? id).getD ""))
  | room + 1, path, id => do
    match (← get).get? id with
    | some align => pure align
    | none =>
      match table.entry? id with
      | none => throw (.unknownType id)
      | some ⟨name, none⟩ => throw (.undefinedType id name)
      | some ⟨_, some c⟩ =>
        if id ∈ path then throw (.cyclicHierarchy c.name)
        else
          let required ← (c.demands target).foldlM
            (Demand.raise (acceptWithin table target room (id :: path))) 1
          let align ← ofExcept (c.settleAlign required)
          modify (·.insert id align)
          pure align

/-- Accept a type and everything it reaches, giving its alignment. -/
def accept (table : TypeTable) (target : Target) (id : TypeId) : Acceptance Nat :=
  table.acceptWithin target (table.size + 1) [] id

/-- One step of the walk, case by case. -/
theorem acceptWithin_succ (table : TypeTable) (target : Target) (room : Nat) (path : List TypeId)
    (id : TypeId) (memo : Memo Nat) :
    table.acceptWithin target (room + 1) path id memo =
      match memo.get? id with
      | some align => .ok align memo
      | none =>
        match table.entry? id with
        | none => .error (.unknownType id) memo
        | some ⟨name, none⟩ => .error (.undefinedType id name) memo
        | some ⟨_, some c⟩ =>
          if id ∈ path then .error (.cyclicHierarchy c.name) memo
          else
            match (c.demands target).foldlM
                (Demand.raise (table.acceptWithin target room (id :: path))) 1 memo with
            | .error rejection rest => .error rejection rest
            | .ok required rest =>
              match c.settleAlign required with
              | .error rejection => .error rejection rest
              | .ok align => .ok align (rest.insert id align) := by
  rw [acceptWithin]
  simp only [bind, EStateM.bind, get, getThe, MonadStateOf.get]
  rw [show (EStateM.get memo : EStateM.Result Rejection _ _) = .ok memo memo from rfl]
  dsimp only
  cases memo.get? id with
  | some align => rfl
  | none =>
    cases table.entry? id with
    | none => rfl
    | some entry =>
      obtain ⟨name, _ | c⟩ := entry
      · rfl
      · by_cases hp : id ∈ path
        · simp only [hp, if_true]
          rfl
        · simp only [hp, if_false]
          rw [EStateM.bind]
          cases (c.demands target).foldlM
              (Demand.raise (table.acceptWithin target room (id :: path))) 1 memo with
          | error rejection rest => rfl
          | ok required rest =>
            dsimp only
            cases c.settleAlign required <;> rfl

end TypeTable

end ObjectLayout
