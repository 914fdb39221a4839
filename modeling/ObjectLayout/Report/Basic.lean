import ObjectLayout.Catalogue.Basic
import ObjectLayout.Planner

/-!
# Reports

What is told about one entry of a catalogue: its layout or why it has none, its bases by name,
and its traits with the rules it breaks. The entries of one report share a planner and a memory
of verdicts.
-/
namespace ObjectLayout

/-- A placed base under the name of its type. -/
structure NamedBase where
  name : String
  offset : Nat
  size : Nat
  sharing : Sharing
  deriving DecidableEq

structure Report where
  name : String
  topic : Topic
  note : String
  layout : Except Rejection Layout
  /-- The placed bases, in the order of the layout. -/
  bases : List NamedBase
  verdict : Verdict
  trivialReasons : List String
  standardLayoutReasons : List String
  /-- The size of a dispatch slot. -/
  pointerSize : Nat

namespace TypeTable

/-- The name of a type, or its handle if it has none. -/
def label (table : TypeTable) (id : TypeId) : String := (table.name? id).getD id.text

end TypeTable

/-- A violation in words, with types by name. -/
def Violation.describe (nameOf : TypeId → String) : Violation → String
  | .sharedBase base => s!"has shared base `{nameOf base}`"
  | .nonTrivialBase base => s!"base `{nameOf base}` is not trivial"
  | .nonStandardBase base => s!"base `{nameOf base}` is not standard layout"
  | .fieldsInMultipleLayers layers =>
    "fields declared in more than one layer: "
      ++ ", ".intercalate (layers.map fun layer => s!"`{nameOf layer}`")
  | .repeatedBase base => s!"base `{nameOf base}` appears more than once"
  | .firstFieldIsBase field base => s!"first field `{field}` has base type `{nameOf base}`"
  | .unresolved type => s!"`{nameOf type}` is not defined"
  | .cyclic type => s!"`{nameOf type}` contains itself"
  | other => other.text

namespace Report

/-- What the reports of one run share. -/
structure Workbench where
  planner : Planner
  traits : TraitMemory := {}

def ofEntry (entry : CatalogueEntry) : StateM Workbench Report := fun bench =>
  let table := bench.planner.table
  let (layout, planner) := (Planner.layout entry.type).run bench.planner
  let (assessment, traits) := (table.explain entry.type).run bench.traits
  let placed := match layout with
    | .ok found => found.bases
    | .error _ => []
  ({ name := entry.name
     topic := entry.topic
     note := entry.note
     layout := layout
     bases := placed.map fun base =>
       ⟨table.label base.type, base.offset, base.size, base.sharing⟩
     verdict := assessment.verdict
     trivialReasons := assessment.trivial.map (·.describe table.label)
     standardLayoutReasons := assessment.standardLayout.map (·.describe table.label)
     pointerSize := planner.target.pointerSize },
    { planner := planner, traits := traits })

/-- The reports on entries of a table for one target, in order. -/
def ofEntries (table : TypeTable) (target : Target) (entries : List CatalogueEntry) : List Report :=
  ((entries.mapM ofEntry).run { planner := .new table target }).1

end Report

end ObjectLayout
