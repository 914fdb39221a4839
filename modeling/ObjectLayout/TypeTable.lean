import ObjectLayout.Composite

/-!
# Tables of types

A table only grows: an entry is added with its description, or declared by name and defined at
most once later. References may point anywhere, also forward or outside the table.
-/
namespace ObjectLayout

/-- Why a declared type cannot be defined. -/
inductive DefinitionError where
  | unknownId (id : TypeId)
  | alreadyDefined (id : TypeId) (name : String)
  deriving DecidableEq

def DefinitionError.message : DefinitionError → String
  | .unknownId id => s!"type index {id.text} does not belong to this pool"
  | .alreadyDefined id name => s!"type `{name}` ({id.text}) is already defined"

/-- One type of a table, with its description once it is defined. -/
structure TypeEntry where
  name : String
  composite : Option Composite
  deriving DecidableEq

structure TypeTable where
  entries : Array TypeEntry := #[]
  deriving DecidableEq

namespace TypeTable

def empty : TypeTable := {}

def size (table : TypeTable) : Nat := table.entries.size

def isEmpty (table : TypeTable) : Bool := table.size == 0

def entry? (table : TypeTable) (id : TypeId) : Option TypeEntry := table.entries[id.index]?

/-- The description of a defined type. -/
def get? (table : TypeTable) (id : TypeId) : Option Composite :=
  (table.entry? id).bind TypeEntry.composite

/-- The name of a declared or defined type. -/
def name? (table : TypeTable) (id : TypeId) : Option String :=
  (table.entry? id).map TypeEntry.name

def contains (table : TypeTable) (id : TypeId) : Bool := id.index < table.size

def isDefined (table : TypeTable) (id : TypeId) : Bool := (table.get? id).isSome

/-- The first type of a name. -/
def find? (table : TypeTable) (name : String) : Option TypeId :=
  (table.entries.findIdx? fun entry => entry.name == name).map TypeId.mk

/-- Every handle, in declaration order. -/
def ids (table : TypeTable) : List TypeId := (List.range table.size).map TypeId.mk

/-- Append a defined type and give its handle. -/
def add (table : TypeTable) (c : Composite) : TypeId × TypeTable :=
  (⟨table.size⟩, ⟨table.entries.push ⟨c.name, some c⟩⟩)

/-- Append a type by name only and give its handle. -/
def declare (table : TypeTable) (name : String) : TypeId × TypeTable :=
  (⟨table.size⟩, ⟨table.entries.push ⟨name, none⟩⟩)

/-- Change the entry of a type where it stands. -/
def modifyEntry (table : TypeTable) (id : TypeId) (change : TypeEntry → TypeEntry) : TypeTable :=
  ⟨table.entries.modify id.index change⟩

/-- Describe a declared type in place. The name of the description replaces the declared one. -/
def describe (id : TypeId) (c : Composite) : EStateM DefinitionError TypeTable Unit := do
  let table ← get
  match table.entry? id with
  | none => throw (.unknownId id)
  | some ⟨name, some _⟩ => throw (.alreadyDefined id name)
  | some ⟨_, none⟩ =>
    modify fun table => table.modifyEntry id fun entry => { entry with name := c.name }
    modify fun table => table.modifyEntry id fun entry => { entry with composite := some c }

/-- The table after a description that is taken. -/
def define (table : TypeTable) (id : TypeId) (c : Composite) : Except DefinitionError TypeTable :=
  match (describe id c).run table with
  | .ok () described => .ok described
  | .error e _ => .error e

@[simp] theorem size_add (table : TypeTable) (c : Composite) :
    (table.add c).2.size = table.size + 1 := by simp [add, size]

@[simp] theorem size_declare (table : TypeTable) (name : String) :
    (table.declare name).2.size = table.size + 1 := by simp [declare, size]

theorem contains_eq_isSome (table : TypeTable) (id : TypeId) :
    table.contains id = (table.entry? id).isSome := by
  by_cases h : id.index < table.entries.size <;> simp [contains, entry?, size, h]

end TypeTable

end ObjectLayout
