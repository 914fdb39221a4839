import Mathlib.Tactic.Ring
import ObjectLayout.Proofs.Expansion

/-!
# The data of fields

Fields are placed group by group, and the data of a group lies between the frontier before it and
the frontier after it. For a run of bit-fields this comes from the packing: the bits of a member
begin where the position stands or at the next unit, and the position never moves back.
-/
namespace ObjectLayout

/-- What a type below contributes: its slot, and its data within the bounds that its placement
states, which are never beyond its sizes. -/
structure Placed.Occupied (placed : Placed) (expansion : Expansion) : Prop where
  slot : expansion.slot = placed.core.dispatch.isSome
  slotData : placed.core.dispatch.isSome → 0 < placed.core.dataSize
  core : BitRange.Packed 0 (8 * placed.core.dataSize) expansion.core
  complete : BitRange.Packed 0 (8 * placed.layout.dataSize) expansion.complete
  coreSize : placed.core.dataSize ≤ placed.core.size
  size : placed.layout.dataSize ≤ placed.layout.size

namespace BitPacking

lemma le_start {unitBits : Nat} (h : 0 < unitBits) (position width : Nat) :
    position ≤ start unitBits position width := by
  unfold start
  split
  · exact le_nextMultiple h position
  · exact le_refl _

end BitPacking

namespace PackedRun

/-- A whole number of units is a whole number of bytes. -/
lemma eight_mul_bytes (unit position : Nat) :
    8 * (nextMultiple position (unit * 8) / 8) = nextMultiple position (unit * 8) :=
  Nat.mul_div_cancel' (Nat.dvd_trans (Nat.dvd_mul_left 8 unit) (dvd_nextMultiple _ _))

lemma unit_dvd_bytes (unit position : Nat) : unit ∣ nextMultiple position (unit * 8) / 8 := by
  rw [nextMultiple, ← Nat.mul_assoc, Nat.mul_div_cancel _ (by decide)]
  exact Nat.dvd_mul_left unit _

lemma size_ofMembers {unit : Nat} (h : 0 < unit) (members : List BitItem) :
    BitPacking.finish (unit * 8) 0 members ≤ 8 * (ofMembers unit members).size := by
  rw [ofMembers, eight_mul_bytes]
  exact le_nextMultiple (Nat.mul_pos h (by decide)) _

end PackedRun

namespace FieldGroup

variable {target : Target} {site : Site} {expansion : TypeId → Expansion}
  {part : TypeId → Except Rejection Placed} {frontier next : Frontier}
  {placed : List PlacedField}

/-- Every member of a run has its place in the region. -/
lemma run_covers (start : Nat) {unit : Nat} {fields : List Field}
    (hfields : ∀ field ∈ fields, ∃ width, field.bitWidth = some (width + 1)) (position : Nat) :
    List.Forall₂ (PlacedField.Covers target) fields
      ((BitPacking.assign (unit * 8) position (bitItems fields)).map (placeBit start unit)) := by
  induction fields generalizing position with
  | nil => exact .nil
  | cons field rest ih =>
    obtain ⟨⟨width, hbits⟩, hrest⟩ := List.forall_mem_cons.mp hfields
    refine .cons ⟨rfl, by simp [placeBit, hbits], fun hnone => ?_⟩ (ih hrest _)
    rw [hbits] at hnone
    cases hnone

/-- Every field of a group has its place. -/
lemma place_covers {group : FieldGroup} (hvalid : group.Valid target)
    (h : group.place site (Composite.extent target part) frontier = .ok (next, placed)) :
    List.Forall₂ (PlacedField.Covers target) group.fields placed := by
  cases group with
  | marker field =>
    obtain ⟨-, rfl⟩ := place_marker_eq_ok h
    refine .cons ⟨rfl, hvalid.1.symm, fun hnone => ?_⟩ .nil
    rw [hvalid.1] at hnone
    cases hnone
  | run unit fields =>
    obtain ⟨start, -, -, rfl⟩ := place_run_eq_ok h
    exact run_covers start (fun field hmem => (hvalid.2.2 field hmem).2.1) 0
  | plain field =>
    obtain ⟨size, natural, hextent, start, -, -, rfl⟩ := place_plain_eq_ok h
    refine .cons ⟨rfl, hvalid.1.symm, fun _ => ?_⟩ .nil
    cases htype : field.type with
    | composite id => simp
    | _ =>
      rw [htype] at hextent
      cases hextent
      simp

/-- Every field has its place. -/
theorem placeAll_covers {groups : List FieldGroup} (hvalid : ∀ group ∈ groups, group.Valid target)
    (h : placeAll site (Composite.extent target part) frontier groups = .ok (next, placed)) :
    List.Forall₂ (PlacedField.Covers target) (groups.flatMap fields) placed := by
  induction groups generalizing frontier placed with
  | nil =>
    cases h
    exact .nil
  | cons group groups ih =>
    obtain ⟨middle, first, others, hgroup, hrest, rfl⟩ := placeAll_cons_eq_ok h
    obtain ⟨hhead, htail⟩ := List.forall_mem_cons.mp hvalid
    rw [List.flatMap_cons]
    exact List.rel_append (place_covers hhead hgroup) (ih htail hrest)

/-- What placing fields gives: the data of the placed fields lies between the frontiers. -/
structure Occupies (expansion : TypeId → Expansion) (fields : List Field)
    (placed : List PlacedField) (low high : Nat) : Prop where
  length : fields.length = placed.length
  grows : low ≤ high
  packed : BitRange.Packed low high (PlacedField.ranges expansion fields placed)

namespace Occupies

lemma nil (expansion : TypeId → Expansion) (low : Nat) : Occupies expansion [] [] low low :=
  ⟨rfl, le_refl _, .nil low low⟩

lemma append {fields others : List Field} {placed placed' : List PlacedField} {low mid high : Nat}
    (h : Occupies expansion fields placed low mid)
    (h' : Occupies expansion others placed' mid high) :
    Occupies expansion (fields ++ others) (placed ++ placed') low high := by
  refine ⟨by rw [List.length_append, List.length_append, h.length, h'.length],
    h.grows.trans h'.grows, ?_⟩
  rw [PlacedField.ranges, List.zip_append h.length, List.flatMap_append]
  exact h.packed.append h'.packed h.grows h'.grows

lemma mono {fields : List Field} {low high low' high' : Nat}
    (h : Occupies expansion fields placed low high) (hlow : low' ≤ low)
    (hhigh : high ≤ high') : Occupies expansion fields placed low' high' :=
  ⟨h.length, hlow.trans (h.grows.trans hhigh), h.packed.mono hlow hhigh⟩

end Occupies

/-- The offset of the unit and the bit within the unit add up to the bit within the region. -/
lemma bit_of_unit (start unit bit : Nat) :
    8 * (start + bit / (unit * 8) * unit) + bit % (unit * 8) = 8 * start + bit := by
  calc 8 * (start + bit / (unit * 8) * unit) + bit % (unit * 8)
      = 8 * start + (unit * 8 * (bit / (unit * 8)) + bit % (unit * 8)) := by ring
    _ = 8 * start + bit := by rw [Nat.div_add_mod]

lemma ranges_placeBit {field : Field} {unit natural start : Nat} {bit : BitPlace}
    (htype : field.type = .scalar unit natural) (hwidth : 0 < bit.width) :
    field.ranges expansion (placeBit start unit bit) =
      [⟨8 * start + bit.bitOffset, 8 * start + bit.bitOffset + bit.width⟩] := by
  simp [Field.ranges, placeBit, htype, bit_of_unit, Nat.ne_of_gt hwidth]

/-- The members of a run that is placed at `start`, from any bit position on. -/
lemma run_occupies {unit start : Nat} (hunit : 0 < unit) (position : Nat) {fields : List Field}
    (hfields : ∀ field ∈ fields, field.storageUnit = unit ∧
      (∃ width, field.bitWidth = some (width + 1)) ∧ field.WellFormed target) :
    Occupies expansion fields
      ((BitPacking.assign (unit * 8) position (bitItems fields)).map (placeBit start unit))
      (8 * start + position)
      (8 * start + BitPacking.finish (unit * 8) position (bitItems fields)) := by
  induction fields generalizing position with
  | nil => exact .nil expansion _
  | cons field rest ih =>
    obtain ⟨⟨hsame, ⟨width, hbits⟩, hfield⟩, hrest⟩ := List.forall_mem_cons.mp hfields
    obtain ⟨⟨align, htype⟩, -⟩ := hfield.storageUnit (by rw [hbits]; rfl)
    rw [hsame] at htype
    have hitem : bitItems (field :: rest) = ⟨field.name, width + 1⟩ :: bitItems rest := by
      simp [bitItems, hbits]
    rw [hitem, BitPacking.assign, BitPacking.finish, List.map_cons]
    dsimp only
    generalize hfirst : BitPacking.start (unit * 8) position (width + 1) = first
    have hle : position ≤ first := by
      rw [← hfirst]
      exact BitPacking.le_start (Nat.mul_pos hunit (by decide)) position _
    have hhead : Occupies expansion [field]
        [placeBit start unit ⟨field.name, first, width + 1⟩] (8 * start + position)
        (8 * start + (first + (width + 1))) := by
      refine ⟨rfl, by omega, ?_⟩
      rw [PlacedField.ranges_singleton, ranges_placeBit htype width.succ_pos]
      exact .singleton (by dsimp only; omega) (by dsimp only; omega) (by dsimp only; omega)
    exact hhead.append (ih _ hrest)

/-- The data of a field that is no bit-field lies between the frontiers before and after it. -/
lemma plain_occupies {field : Field} (hfield : field.WellFormed target)
    (hpointer : 0 < target.pointerSize)
    (hparts : ∀ id, field.type = .composite id → ∀ p, part id = .ok p → p.Occupied (expansion id))
    (h : (FieldGroup.plain field).place site (Composite.extent target part) frontier =
      .ok (next, placed)) :
    Occupies expansion [field] placed (8 * frontier.offset) (8 * next.offset) := by
  obtain ⟨size, natural, hextent, start, hstart, rfl, rfl⟩ := place_plain_eq_ok h
  have hle : frontier.offset ≤ start := hstart ▸ le_roundUp _ _
  -- It is enough to know the data.
  refine ⟨rfl, by dsimp only; omega, ?_⟩
  rw [PlacedField.ranges_singleton]
  suffices hpacked : BitRange.Packed (8 * start) (8 * (start + size))
      (field.ranges expansion ⟨field.name, start, size, none⟩) from
    hpacked.mono (by omega) (le_refl _)
  rw [Field.ranges]
  cases htype : field.type with
  | scalar declared align =>
    rw [htype] at hextent
    cases hextent
    have hsize := hfield.size_pos size natural htype
    exact .singleton (le_refl _) (by dsimp only [BitRange.ofBytes]; omega) (le_refl _)
  | pointer =>
    rw [htype] at hextent
    cases hextent
    exact .singleton (le_refl _) (by dsimp only [BitRange.ofBytes]; omega) (le_refl _)
  | composite id =>
    rw [htype] at hextent
    obtain ⟨p, hp, hextent⟩ := bind_eq_ok.mp hextent
    cases hextent
    have hpart := hparts id htype p hp
    have hsize := hpart.size
    exact (hpart.complete.shift start).mono (le_refl _) (by omega)

/-- The data of one group lies between the frontiers before and after it. -/
lemma place_occupies {group : FieldGroup} (hvalid : group.Valid target)
    (hpointer : 0 < target.pointerSize)
    (hparts : ∀ field ∈ group.fields, ∀ id, field.type = .composite id →
      ∀ p, part id = .ok p → p.Occupied (expansion id))
    (h : group.place site (Composite.extent target part) frontier = .ok (next, placed)) :
    Occupies expansion group.fields placed (8 * frontier.offset) (8 * next.offset) := by
  cases group with
  | marker field =>
    obtain ⟨hbits, hfield⟩ := hvalid
    obtain ⟨⟨align, htype⟩, -⟩ := hfield.storageUnit (by rw [hbits]; rfl)
    obtain ⟨rfl, rfl⟩ := place_marker_eq_ok h
    refine ⟨rfl, Nat.mul_le_mul_left 8 (le_roundUp _ _), ?_⟩
    simpa [PlacedField.ranges, fields, Field.ranges, htype] using .nil _ _
  | run unit fields =>
    obtain ⟨hunit, -, hfields⟩ := hvalid
    obtain ⟨start, rfl, rfl, rfl⟩ := place_run_eq_ok h
    have hle := le_roundUp frontier.offset (site.granted unit)
    have hsize := PackedRun.size_ofMembers hunit (bitItems fields)
    refine (run_occupies hunit 0 hfields).mono (by omega) ?_
    dsimp only
    omega
  | plain field =>
    exact plain_occupies hvalid.2 hpointer (hparts field (List.mem_singleton_self field)) h

/-- The data of all groups lies between the first and the last frontier. -/
theorem placeAll_occupies {groups : List FieldGroup}
    (hvalid : ∀ group ∈ groups, group.Valid target) (hpointer : 0 < target.pointerSize)
    (hparts : ∀ field ∈ groups.flatMap fields, ∀ id, field.type = .composite id →
      ∀ p, part id = .ok p → p.Occupied (expansion id))
    (h : placeAll site (Composite.extent target part) frontier groups = .ok (next, placed)) :
    Occupies expansion (groups.flatMap fields) placed (8 * frontier.offset) (8 * next.offset) := by
  induction groups generalizing frontier placed with
  | nil =>
    cases h
    exact .nil expansion _
  | cons group groups ih =>
    obtain ⟨middle, first, others, hgroup, hrest, rfl⟩ := placeAll_cons_eq_ok h
    obtain ⟨hhead, htail⟩ := List.forall_mem_cons.mp hvalid
    rw [List.flatMap_cons] at hparts ⊢
    refine (place_occupies hhead hpointer (fun field hmem => ?_) hgroup).append
      (ih htail (fun field hmem => ?_) hrest)
    · exact hparts field (List.mem_append_left _ hmem)
    · exact hparts field (List.mem_append_right _ hmem)

end FieldGroup

end ObjectLayout
