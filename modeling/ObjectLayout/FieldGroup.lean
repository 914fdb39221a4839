import ObjectLayout.BitPacking
import ObjectLayout.Field
import ObjectLayout.Frontier
import ObjectLayout.Layout

/-!
# Placing fields

Fields are placed in declaration order, one group at a time: a plain field, a marker, or a
maximal run of adjacent bit-fields that share a storage unit size. A marker ends a run and only
rounds the frontier; a run becomes one packed region of whole units.
-/
namespace ObjectLayout

inductive FieldGroup where
  | plain (field : Field)
  | marker (field : Field)
  /-- Bit-fields of positive width in units of the given size. -/
  | run (unit : Nat) (fields : List Field)
  deriving DecidableEq

namespace FieldGroup

/-- Put a bit-field before the groups that follow it, joining a run of its own unit. -/
def joinRun (field : Field) : List FieldGroup → List FieldGroup
  | .run unit fields :: rest =>
    if field.storageUnit = unit then .run unit (field :: fields) :: rest
    else .run field.storageUnit [field] :: .run unit fields :: rest
  | groups => .run field.storageUnit [field] :: groups

/-- The groups of a list of fields, in order. -/
def ofFields : List Field → List FieldGroup
  | [] => []
  | field :: rest =>
    match field.bitWidth with
    | none => .plain field :: ofFields rest
    | some 0 => .marker field :: ofFields rest
    | some (_ + 1) => joinRun field (ofFields rest)

/-- The fields of a group, in order. -/
def fields : FieldGroup → List Field
  | .plain field => [field]
  | .marker field => [field]
  | .run _ fields => fields

/-- Joining a run adds its field in front and keeps all others. -/
theorem flatMap_fields_joinRun (field : Field) (groups : List FieldGroup) :
    (joinRun field groups).flatMap fields = field :: groups.flatMap fields := by
  unfold joinRun
  split
  · split <;> simp [fields]
  · simp [fields]

/-- Grouping loses no field and keeps the order. -/
theorem flatMap_fields_ofFields (all : List Field) : (ofFields all).flatMap fields = all := by
  induction all with
  | nil => rfl
  | cons field rest ih =>
    unfold ofFields
    split <;> simp [flatMap_fields_joinRun, fields, ih]

/-- Where a packed bit lies when its region starts at `start`. -/
def placeBit (start unit : Nat) (bit : BitPlace) : PlacedField :=
  { name := bit.name
    offset := start + bit.bitOffset / (unit * 8) * unit
    size := unit
    bits := some ⟨bit.bitOffset % (unit * 8), bit.width⟩ }

/-- Place one group, given the size and natural alignment of field types. -/
def place (site : Site) (extent : FieldType → Except Rejection (Nat × Nat))
    (frontier : Frontier) : FieldGroup → Except Rejection (Frontier × List PlacedField)
  | .plain field => do
    let (size, natural) ← extent field.type
    let start ← frontier.alignFor site (max natural (field.forcedAlign.getD 1))
    let next ← start.advance site size
    return (next, [⟨field.name, start.offset, size, none⟩])
  | .marker field => do
    let next ← frontier.roundTo site field.storageUnit
    return (next, [⟨field.name, next.offset, 0, some ⟨0, 0⟩⟩])
  | .run unit fields => do
    let packed := PackedRun.ofMembers unit
      (fields.map fun field => ⟨field.name, field.bitWidth.getD 0⟩)
    let start ← frontier.alignFor site packed.align
    let next ← start.advance site packed.size
    return (next, packed.bits.map (placeBit start.offset unit))

/-- Place groups one behind the other. -/
def placeAll (site : Site) (extent : FieldType → Except Rejection (Nat × Nat)) :
    Frontier → List FieldGroup → Except Rejection (Frontier × List PlacedField)
  | frontier, [] => .ok (frontier, [])
  | frontier, group :: rest => do
    let (next, placed) ← group.place site extent frontier
    let (last, others) ← placeAll site extent next rest
    return (last, placed ++ others)

end FieldGroup

end ObjectLayout
