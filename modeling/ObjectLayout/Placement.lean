import ObjectLayout.Draft
import ObjectLayout.FieldGroup

/-!
# Placing one type

A type is placed from the placements of the types it refers to. First come its own dispatch
slot, its owned bases and its fields, which make up its core; then every shared base of the
hierarchy, once each; last the size is rounded up. The placement depends on the table only
through `part`, the placements of other types, and `isPod`.
-/
namespace ObjectLayout

/-- A placed type: as a complete object, as a base, and the shared bases that a complete object
above it has to place, in the order in which a walk over all bases first meets them. -/
structure Placed where
  layout : Layout
  core : Core
  shared : List TypeId
  deriving DecidableEq

namespace Composite

def site (target : Target) (c : Composite) : Site := ⟨c.name, target, c.packing⟩

/-- The size and natural alignment of a field that is no bit-field. -/
def extent (target : Target) (part : TypeId → Except Rejection Placed) :
    FieldType → Except Rejection (Nat × Nat)
  | .scalar size align => .ok (size, align)
  | .pointer => .ok (target.pointerSize, target.pointerSize)
  | .composite id => do
    let placed ← part id
    return (placed.layout.size, placed.layout.align)

/-- The cores of the owned bases, in declaration order. -/
def ownedCores (part : TypeId → Except Rejection Placed) (c : Composite) :
    Except Rejection (List (TypeId × Core)) :=
  c.ownedBases.mapM fun base => do
    let placed ← part base.type
    return (base.type, placed.core)

/-- A type opens with a dispatch slot of its own if it needs one and no owned base brings one. -/
def openSlot (target : Target) (c : Composite) (owned : List (TypeId × Core)) :
    Except Rejection Draft :=
  if c.introducesDispatch && !owned.any (fun base => base.2.dispatch.isSome) then do
    let site := c.site target
    let start ← Frontier.alignFor site {} target.pointerSize
    let next ← start.advance site target.pointerSize
    return { frontier := next, dispatch := some start.offset }
  else .ok {}

/-- The bytes that an owned base takes. Where tail padding is reused, a base that is not plain
old data gives up what follows its last data byte. -/
def ownedBytes (target : Target) (isPod : TypeId → Bool) (base : TypeId × Core) : Nat :=
  match target.tailPadding with
  | .keep => base.2.size
  | .reuse => if isPod base.1 then base.2.size else base.2.dataSize

/-- Every shared base of the hierarchy, once each, in the order in which a walk over all bases
first meets it. -/
def hoisted (part : TypeId → Except Rejection Placed) (c : Composite) :
    Except Rejection (List TypeId) :=
  c.bases.foldlM (fun seen base => do
    let placed ← part base.type
    let met := if base.isShared then FirstSeen.note seen base.type else seen
    return FirstSeen.noteAll met placed.shared) []

/-- Count the forced alignment of a type, if it has one. -/
def forceAlign (c : Composite) (frontier : Frontier) : Frontier :=
  match c.forcedAlign with
  | some forced => { frontier with align := max frontier.align forced }
  | none => frontier

/-- Place the core of a type: slot, owned bases and fields. -/
def placeOwn (target : Target) (isPod : TypeId → Bool)
    (part : TypeId → Except Rejection Placed) (c : Composite) :
    Except Rejection (Draft × List PlacedField) := do
  let site := c.site target
  let owned ← c.ownedCores part
  let opened ← c.openSlot target owned
  let based ← owned.foldlM (fun draft base =>
    draft.embed site base.1 .owned base.2 (ownedBytes target isPod base)) opened
  let (frontier, fields) ←
    FieldGroup.placeAll site (extent target part) based.frontier (FieldGroup.ofFields c.fields)
  return ({ based with frontier := c.forceAlign frontier }, fields)

/-- Place shared bases behind the core. -/
def placeShared (target : Target) (part : TypeId → Except Rejection Placed) (c : Composite)
    (draft : Draft) (shared : List TypeId) : Except Rejection Draft :=
  shared.foldlM (fun draft type => do
    let placed ← part type
    draft.embed (c.site target) type .shared placed.core placed.core.size) draft

/-- Place a type, given the placements of all types it refers to. -/
def place (target : Target) (isPod : TypeId → Bool) (part : TypeId → Except Rejection Placed)
    (c : Composite) : Except Rejection Placed := do
  let site := c.site target
  let (own, fields) ← c.placeOwn target isPod part
  let core ← Core.close site own.frontier own.dispatch
  let shared ← c.hoisted part
  let complete ← c.placeShared target part own shared
  let size ← site.require
    (target.roundUp? (max complete.frontier.offset 1) complete.frontier.align)
  return {
    layout := {
      size := size
      align := complete.frontier.align
      dataSize := complete.frontier.offset
      dispatch := complete.dispatch
      fields := fields
      bases := complete.bases }
    core := core
    shared := shared }

end Composite

end ObjectLayout
