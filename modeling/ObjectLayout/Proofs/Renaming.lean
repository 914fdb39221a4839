import ObjectLayout.Proofs.AcceptanceWalk
import ObjectLayout.Proofs.Moves

/-!
# Renaming types

A renaming gives every type another index. It acts on descriptions through their references, and on
results wherever they name a type; alignments, offsets and texts stay as they are. What a
description says of itself commutes with it: its references, its demands, its groups of fields.
Lists in first-seen order need the renaming to be injective, since it must not make two types one.
-/
namespace ObjectLayout

variable {m : TypeId → TypeId}

namespace FieldType

def rename (m : TypeId → TypeId) : FieldType → FieldType
  | .scalar size align => .scalar size align
  | .pointer => .pointer
  | .composite id => .composite (m id)

@[simp] lemma rename_id (type : FieldType) : type.rename id = type := by
  cases type <;> rfl

@[simp] lemma composite?_rename (type : FieldType) :
    (type.rename m).composite? = type.composite?.map m := by
  cases type <;> rfl

end FieldType

namespace Field

def rename (m : TypeId → TypeId) (field : Field) : Field :=
  { field with type := field.type.rename m }

@[simp] lemma rename_id (field : Field) : field.rename id = field := by
  simp [rename]

@[simp] lemma storageUnit_rename (field : Field) :
    (field.rename m).storageUnit = field.storageUnit := by
  obtain ⟨name, type, _⟩ := field
  cases type <;> rfl

end Field

namespace Base

def rename (m : TypeId → TypeId) (base : Base) : Base := { base with type := m base.type }

@[simp] lemma rename_id (base : Base) : base.rename id = base := rfl

@[simp] lemma type_rename (base : Base) : (base.rename m).type = m base.type := rfl

@[simp] lemma isShared_rename (base : Base) : (base.rename m).isShared = base.isShared := rfl

end Base

namespace Composite

variable {target : Target} {c : Composite}

def rename (m : TypeId → TypeId) (c : Composite) : Composite :=
  { c with bases := c.bases.map (Base.rename m), fields := c.fields.map (Field.rename m) }

@[simp] lemma rename_id (c : Composite) : c.rename id = c := by
  have hbases : Base.rename id = id := funext Base.rename_id
  have hfields : Field.rename id = id := funext Field.rename_id
  simp [rename, hbases, hfields]

lemma references_rename (c : Composite) : (c.rename m).references = c.references.map m := by
  simp [references, rename, Field.rename, List.map_append, List.map_filterMap,
    List.filterMap_map, Function.comp_def, Base.rename]

lemma ownedBases_rename (c : Composite) :
    (c.rename m).ownedBases = c.ownedBases.map (Base.rename m) := by
  simp [ownedBases, rename, List.filter_map, Function.comp_def]

lemma members_rename (c : Composite) :
    (c.rename m).members = c.members.map (Field.rename m) := by
  simp [members, rename, List.filter_map, Function.comp_def, Field.rename, Field.isMarker]

end Composite

/-- A description is renamed under the name of its entry. -/
def TypeEntry.rename (m : TypeId → TypeId) (entry : TypeEntry) : TypeEntry :=
  { entry with composite := entry.composite.map (Composite.rename m) }

namespace Rejection

def rename (m : TypeId → TypeId) : Rejection → Rejection
  | .unknownType id => .unknownType (m id)
  | .undefinedType id name => .undefinedType (m id) name
  | rejection => rejection

@[simp] lemma rename_id (rejection : Rejection) : rejection.rename id = rejection := by
  cases rejection <;> rfl

end Rejection

/-- A result renamed, or the reason why there is none. -/
def renamed {α : Type} (m : TypeId → TypeId) (f : α → α) : Except Rejection α → Except Rejection α
  | .ok result => .ok (f result)
  | .error rejection => .error (rejection.rename m)

namespace Demand

def rename (m : TypeId → TypeId) : Demand → Demand
  | .align bytes => .align bytes
  | .nested id => .nested (m id)
  | .defect rejection => .defect (rejection.rename m)

end Demand

namespace Field

variable {target : Target} {owner : String} {field : Field} {align size width : Nat}

lemma naturalDemand_renamed :
    (field.naturalDemand target owner align).rename m = field.naturalDemand target owner align := by
  unfold naturalDemand
  split_ifs <;> rfl

lemma bitDemands_renamed :
    (field.bitDemands target owner size width).map (Demand.rename m) =
      field.bitDemands target owner size width := by
  have hnatural := @naturalDemand_renamed m target owner field size
  unfold bitDemands
  cases hdemand : field.naturalDemand target owner size with
  | align bytes =>
    dsimp only
    split_ifs <;> rfl
  | nested id =>
    rw [hdemand] at hnatural
    exact congrArg ([·]) hnatural
  | defect rejection =>
    rw [hdemand] at hnatural
    exact congrArg ([·]) hnatural

/-- No demand of a field but a nested one names a type. -/
lemma typeDemands_rename : (field.rename m).typeDemands target owner =
    (field.typeDemands target owner).map (Demand.rename m) := by
  obtain ⟨name, type, bitWidth, forcedAlign, access, hasInitializer⟩ := field
  cases type with
  | scalar size align =>
    by_cases hzero : size = 0
    · simp only [typeDemands, rename, FieldType.rename, hzero, if_true]
      rfl
    · cases bitWidth with
      | none =>
        simp only [typeDemands, rename, FieldType.rename, hzero, if_false]
        exact congrArg ([·]) naturalDemand_renamed.symm
      | some width =>
        simp only [typeDemands, rename, FieldType.rename, hzero, if_false]
        exact bitDemands_renamed.symm
  | pointer => cases bitWidth <;> rfl
  | composite id => cases bitWidth <;> rfl

lemma demands_rename : (field.rename m).demands target owner =
    (field.demands target owner).map (Demand.rename m) := by
  have htype := @typeDemands_rename m target owner field
  obtain ⟨name, type, bitWidth, forcedAlign, access, hasInitializer⟩ := field
  cases forcedAlign with
  | none => cases bitWidth <;> exact htype
  | some forced =>
    cases bitWidth with
    | some width => rfl
    | none =>
      have hforced : (Demand.forced owner (.field name) forced).rename m =
          Demand.forced owner (.field name) forced := by
        unfold Demand.forced
        split_ifs <;> rfl
      simp only [demands, List.map_append, List.map_cons, List.map_nil, hforced, ← htype]
      rfl

end Field

namespace Composite

variable {target : Target} {c : Composite}

lemma fieldDemands_rename (owner : String) (seen : List String) (fields : List Field) :
    fieldDemands target owner seen (fields.map (Field.rename m)) =
      (fieldDemands target owner seen fields).map (Demand.rename m) := by
  induction fields generalizing seen with
  | nil => rfl
  | cons field fields ih =>
    rw [List.map_cons, fieldDemands, fieldDemands, ih, Field.demands_rename, List.map_append,
      List.map_append]
    congr 2
    show (if (!field.isAnonymous && seen.contains field.name) = true then _ else _) = _
    split_ifs <;> rfl

lemma directiveDefects_renamed :
    c.directiveDefects.map (Demand.rename m) = c.directiveDefects := by
  have hfaults : ∀ part align,
      (directiveDefects.faults c part align).map (Demand.rename m) =
        directiveDefects.faults c part align := by
    intro part align
    cases align with
    | none => rfl
    | some align =>
      unfold directiveDefects.faults
      dsimp only
      split_ifs <;> rfl
  unfold directiveDefects
  rw [List.map_append, List.map_append, hfaults, hfaults]
  congr 2
  split_ifs <;> rfl

/-- The demands keep their order. -/
theorem demands_rename (c : Composite) :
    (c.rename m).demands target = (c.demands target).map (Demand.rename m) := by
  unfold demands
  simp only [List.map_append, directiveDefects_renamed, ← fieldDemands_rename, List.map_map]
  congr 2
  · congr 1
    show (if c.introducesDispatch = true then _ else _) = _
    split_ifs <;> rfl
  · exact List.map_map

end Composite

namespace FieldGroup

/-- The group with every field replaced. -/
def map (f : Field → Field) : FieldGroup → FieldGroup
  | .plain field => .plain (f field)
  | .marker field => .marker (f field)
  | .run unit fields => .run unit (fields.map f)

section

variable (f : Field → Field) (hbits : ∀ field, (f field).bitWidth = field.bitWidth)
  (hunit : ∀ field, (f field).storageUnit = field.storageUnit)

include hunit in
lemma joinRun_map (field : Field) (groups : List FieldGroup) :
    joinRun (f field) (groups.map (map f)) = (joinRun field groups).map (map f) := by
  cases groups with
  | nil => simp [joinRun, map, hunit]
  | cons group groups =>
    cases group with
    | run unit fields => by_cases h : field.storageUnit = unit <;> simp [joinRun, map, hunit, h]
    | _ => simp [joinRun, map, hunit]

include hbits hunit in
/-- Grouping looks only at the widths and the storage units of bit-fields. -/
lemma ofFields_map (fields : List Field) :
    ofFields (fields.map f) = (ofFields fields).map (map f) := by
  induction fields with
  | nil => rfl
  | cons field fields ih =>
    rw [List.map_cons, ofFields, ofFields, ih, hbits]
    split
    · rfl
    · rfl
    · exact joinRun_map f hunit field _

end

def rename (m : TypeId → TypeId) : FieldGroup → FieldGroup
  | .plain field => .plain (field.rename m)
  | .marker field => .marker (field.rename m)
  | .run unit fields => .run unit (fields.map (Field.rename m))

lemma map_rename : map (Field.rename m) = rename m := by
  funext group
  cases group <;> rfl

lemma ofFields_rename (fields : List Field) :
    ofFields (fields.map (Field.rename m)) = (ofFields fields).map (rename m) := by
  rw [ofFields_map (Field.rename m) (fun _ => rfl) Field.storageUnit_rename, map_rename]

end FieldGroup

namespace FirstSeen

lemma note_map (hm : m.Injective) (seen : List TypeId) (id : TypeId) :
    note (seen.map m) (m id) = (note seen id).map m := by
  by_cases h : id ∈ seen <;> simp [note, h, List.mem_map_of_injective hm]

lemma noteAll_map (hm : m.Injective) (seen ids : List TypeId) :
    noteAll (seen.map m) (ids.map m) = (noteAll seen ids).map m := by
  induction ids generalizing seen with
  | nil => rfl
  | cons id ids ih =>
    show noteAll (note (seen.map m) (m id)) (ids.map m) = _
    rw [note_map hm, ih]
    rfl

end FirstSeen

/-- What one memo holds for a type, the other holds for the renamed one, renamed. -/
def Memo.Mirrors {α : Type} (m : TypeId → TypeId) (f : α → α) (memo memo' : Memo α) : Prop :=
  ∀ id, memo'.get? (m id) = (memo.get? id).map f

namespace Memo.Mirrors

variable {α : Type} {f : α → α} {memo memo' : Memo α}

lemma empty : Mirrors m f {} {} := fun _ => rfl

/-- What is put under one type is found under no other. -/
lemma insert (h : Mirrors m f memo memo') (hm : m.Injective) (id : TypeId) (answer : α) :
    Mirrors m f (memo.insert id answer) (memo'.insert (m id) (f answer)) := by
  intro other
  rw [get?_insert, get?_insert, h other]
  by_cases heq : id = other
  · simp [heq]
  · simp [heq, hm.ne heq]

end Memo.Mirrors

namespace TypeTable

variable {P Q : TypeTable} {root id part : TypeId} {path : List TypeId} {room room' : Nat}
  {c : Composite}

/-- Two walks of one course, from a type and from the renamed one, have come to types with room for
what lies ahead of them. -/
structure TwinTrail (m : TypeId → TypeId) (P Q : TypeTable) (root : TypeId) (room room' : Nat)
    (path : List TypeId) (id : TypeId) : Prop where
  reached : P.Reaches root id
  trail : P.Trail path id
  trail' : Q.Trail (path.map m) (m id)
  room : path.length + room = P.size + 1
  room' : path.length + room' = Q.size + 1

namespace TwinTrail

lemma nil (h : P.Reaches root id) : TwinTrail m P Q root (P.size + 1) (Q.size + 1) [] id :=
  ⟨h, .nil P id, .nil Q (m id), Nat.zero_add _, Nat.zero_add _⟩

/-- The room of neither walk is ever used up. -/
lemma room_ne_zero (h : TwinTrail m P Q root room room' path id) : room ≠ 0 ∧ room' ≠ 0 := by
  have hlength := h.trail.length_le
  have hlength' := h.trail'.length_le
  have hroom := h.room
  have hroom' := h.room'
  rw [List.length_map] at hlength'
  omega

lemma step (h : TwinTrail m P Q root (room + 1) (room' + 1) path id) (hm : m.Injective)
    (hid : id ∉ path) (hc : P.get? id = some c) (hc' : Q.get? (m id) = some (c.rename m))
    (hpart : part ∈ c.references) : TwinTrail m P Q root room room' (id :: path) part where
  reached := h.reached.tail ((refers_iff hc).mpr hpart)
  trail := h.trail.step hid hc hpart
  trail' := by
    have href : m part ∈ (c.rename m).references := by
      rw [Composite.references_rename]
      exact List.mem_map_of_mem hpart
    exact h.trail'.step (mt (List.mem_map_of_injective hm).mp hid) hc' href
  room := by
    have := h.room
    rw [List.length_cons]
    omega
  room' := by
    have := h.room'
    rw [List.length_cons]
    omega

end TwinTrail

end TypeTable

end ObjectLayout
