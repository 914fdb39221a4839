import ObjectLayout.Proofs.LeastPacking
import ObjectLayout.Proofs.SpansApart

/-!
# Declared fields

A layout has one place for every declared field, in the order of declaration, and no place lies
before the one listed ahead of it. Names are given only once, so looking up a name finds the place
of the one field that has it.
-/
namespace ObjectLayout

namespace FieldGroup

variable {target : Target} {site : Site} {extent : FieldType → Except Rejection (Nat × Nat)}
  {frontier next last : Frontier} {placed : List PlacedField} {field : PlacedField}
  {span : BitSpan}

/-- The bits of every member of a run end within the unit that is reported for it. -/
lemma placeBit_inUnit {unit : Nat} {members : List Field} {bit : BitPlace} (start : Nat)
    (hvalid : (FieldGroup.run unit members).Valid target)
    (hmem : bit ∈ (PackedRun.ofMembers unit (bitItems members)).bits)
    (hspan : span ∈ (placeBit start unit bit).bits) :
    span.offset + span.width ≤ 8 * (placeBit start unit bit).size := by
  have hitem := List.mem_map_of_mem (f := BitPlace.item) hmem
  rw [PackedRun.ofMembers, BitPacking.map_item_assign] at hitem
  have hwidth : bit.width ≤ unit * 8 := (hvalid.bitItems_width _ hitem).2
  obtain ⟨taken, htaken⟩ := BitPacking.exists_start_of_mem_assign hmem
  have hfits := BitPacking.start_mod_add_le taken hwidth
  rw [← htaken] at hfits
  obtain rfl : ⟨bit.bitOffset % (unit * 8), bit.width⟩ = span := Option.some.inj hspan
  dsimp only [placeBit]
  omega

lemma place_inUnit {group : FieldGroup} (hvalid : group.Valid target)
    (h : group.place site extent frontier = .ok (next, placed)) (hfield : field ∈ placed)
    (hspan : span ∈ field.bits) : span.offset + span.width ≤ 8 * field.size := by
  cases group with
  | plain declared =>
    obtain ⟨size, natural, -, start, -, -, rfl⟩ := place_plain_eq_ok h
    obtain rfl := List.mem_singleton.mp hfield
    cases hspan
  | marker declared =>
    obtain ⟨-, rfl⟩ := place_marker_eq_ok h
    obtain rfl := List.mem_singleton.mp hfield
    cases hspan
    exact le_refl _
  | run unit members =>
    obtain ⟨start, -, -, rfl⟩ := place_run_eq_ok h
    obtain ⟨bit, hbit, rfl⟩ := List.mem_map.mp hfield
    exact placeBit_inUnit start hvalid hbit hspan

/-- The bits of every field end within the storage unit that is reported for the field. -/
lemma placeAll_inUnit {groups : List FieldGroup} (hvalid : ∀ group ∈ groups, group.Valid target)
    (h : placeAll site extent frontier groups = .ok (last, placed)) :
    ∀ field ∈ placed, ∀ span ∈ field.bits, span.offset + span.width ≤ 8 * field.size := by
  induction groups generalizing frontier placed with
  | nil =>
    cases h
    simp
  | cons group groups ih =>
    obtain ⟨next, first, others, hgroup, hrest, rfl⟩ := placeAll_cons_eq_ok h
    obtain ⟨hhead, htail⟩ := List.forall_mem_cons.mp hvalid
    intro field hfield span hspan
    rcases List.mem_append.mp hfield with hfirst | hothers
    · exact place_inUnit hhead hgroup hfirst hspan
    · exact ih htail hrest field hothers span hspan

end FieldGroup

namespace Composite

variable {target : Target} {isPod : TypeId → Bool} {part : TypeId → Except Rejection Placed}
  {c : Composite} {placed : Placed} {steps : Construction target isPod part c placed}

/-- A name is given to one field only. -/
lemma WellFormed.eq_of_name_eq (h : c.WellFormed target) {i j : Nat} {field other : Field}
    (hfield : c.fields[i]? = some field) (hother : c.fields[j]? = some other)
    (hsame : other.name = field.name) (hname : field.name ≠ "") : j = i := by
  obtain ⟨hi, rfl⟩ := List.getElem?_eq_some_iff.mp hfield
  obtain ⟨hj, rfl⟩ := List.getElem?_eq_some_iff.mp hother
  have hpairs := List.pairwise_iff_getElem.mp h.names
  rcases Nat.lt_trichotomy i j with hlt | heq | hlt
  · exact absurd (hpairs i j hi hj hlt hsame.symm) hname
  · exact heq.symm
  · exact absurd (hsame.symm.trans (hpairs j i hj hi hlt hsame)) hname

/-- No field lies before the one ahead of it, which at most shares its storage unit. -/
lemma Construction.PartsRegular.offsets_sorted (h : steps.PartsRegular)
    (hwell : c.WellFormed target) :
    (placed.layout.fields.map PlacedField.offset).Pairwise (· ≤ ·) := by
  have hspans := (h.spans_inOrder hwell).order
  rw [Layout.spans, List.pairwise_append, List.pairwise_append] at hspans
  have hstarts : placed.layout.fields.map PlacedField.offset =
      (Span.numbered 0 placed.layout.fields).map Span.start := by
    rw [Span.numbered, List.map_map, ← List.zipIdx_map_fst 0 placed.layout.fields, List.map_map,
      List.zipIdx_map_fst]
    rfl
  rw [hstarts, List.pairwise_map]
  refine hspans.1.2.1.imp ?_
  rintro a b (hbefore | ⟨i, j, one, other, unit, rfl, rfl, -, hsame, -⟩)
  · exact (Nat.le_add_right _ _).trans hbefore
  · exact hsame.le

end Composite

namespace Layout

variable {target : Target} {c : Composite} {layout : Layout} {field : Field}
  {placed : PlacedField} {name : String} {i : Nat}

/-- The entries of a layout are its places, each under the name that was declared for it. -/
lemma Covers.fieldOffsets_eq (h : layout.Covers target c) :
    layout.fieldOffsets = ((c.fields.zip layout.fields).filter fun entry =>
      !entry.1.isAnonymous).map fun entry => (entry.1.name, entry.2.offset) := by
  have hfields := h.fields
  unfold fieldOffsets
  generalize c.fields = fields at hfields ⊢
  generalize layout.fields = places at hfields ⊢
  induction hfields with
  | nil => rfl
  | @cons field placed fields places hcovers _ ih =>
    rw [List.zip_cons_cons, List.filter_cons, List.filter_cons, Field.isAnonymous, hcovers.1]
    split
    · rw [List.map_cons, List.map_cons, hcovers.1, ih]
    · exact ih

lemma Covers.fieldOffsets_names (h : layout.Covers target c) :
    layout.fieldOffsets.map Prod.fst =
      (c.fields.filter fun field => !field.isAnonymous).map Field.name := by
  have hdeclared : (c.fields.zip layout.fields).map Prod.fst = c.fields :=
    List.map_fst_zip h.fields.length_eq.le
  conv_rhs => rw [← hdeclared, List.filter_map, List.map_map]
  rw [h.fieldOffsets_eq, List.map_map]
  rfl

/-- A name that fields are listed under belongs to one of them only. -/
lemma Covers.fieldOffsets_nodup (h : layout.Covers target c) (hwell : c.WellFormed target) :
    (layout.fieldOffsets.map Prod.fst).Nodup := by
  rw [h.fieldOffsets_names, List.Nodup, List.pairwise_map]
  refine (hwell.names.filter _).imp_of_mem fun {earlier later} hmem _ hsame heq => ?_
  have hnamed := (List.mem_filter.mp hmem).2
  rw [Field.isAnonymous, hsame heq] at hnamed
  cases hnamed

/-- Looking up the name of a field gives the place of the field. -/
lemma Covers.field?_eq_some (h : layout.Covers target c) (hwell : c.WellFormed target)
    (hfield : c.fields[i]? = some field) (hplaced : layout.fields[i]? = some placed)
    (hname : field.name ≠ "") : layout.field? field.name = some placed := by
  obtain ⟨hi, rfl⟩ := List.getElem?_eq_some_iff.mp hfield
  obtain ⟨hi', rfl⟩ := List.getElem?_eq_some_iff.mp hplaced
  have hsame : ∀ j (hj : j < c.fields.length) (hj' : j < layout.fields.length),
      layout.fields[j].name = c.fields[j].name := fun j hj hj' => (h.fields.get hj hj').1
  refine List.find?_eq_some_iff_getElem.mpr ⟨?_, i, hi', rfl, fun j hj => ?_⟩
  · simpa [hsame i hi hi'] using hname
  · have hearlier := List.pairwise_iff_getElem.mp hwell.names j i (by omega) hi hj
    rw [hsame j (by omega) (by omega)]
    by_cases heq : c.fields[j].name = c.fields[i].name
    · simp [hearlier heq]
    · simp [heq]

lemma Covers.field?_eq_none (h : layout.Covers target c)
    (hname : name = "" ∨ ∀ field ∈ c.fields, field.name ≠ name) : layout.field? name = none := by
  refine List.find?_eq_none.mpr fun placed hmem hfound => ?_
  obtain ⟨hnamed, hsame⟩ : placed.name ≠ "" ∧ placed.name = name := by simpa using hfound
  obtain ⟨field, hfield, hcovers⟩ := exists_of_mem_right h.fields hmem
  rcases hname with rfl | hundeclared
  · exact hnamed hsame
  · exact hundeclared field hfield (hcovers.1.symm.trans hsame)

end Layout

namespace TypeTable

/-- A layout places the declared fields, each once and in order: under its name, with the bits that
it declares inside its storage unit, never before the field ahead of it. A name finds the place of
the one field that has it, and no other name finds anything. -/
theorem layout_declared_fields (table : TypeTable) (target : Target) (id : TypeId) (c : Composite)
    (layout : Layout) (hc : table.get? id = some c) (h : table.layout target id = .ok layout) :
    List.Forall₂ (PlacedField.Covers target) c.fields layout.fields ∧
      (∀ field ∈ layout.fields, ∀ span ∈ field.bits, span.offset + span.width ≤ 8 * field.size) ∧
      (layout.fields.map PlacedField.offset).Pairwise (· ≤ ·) ∧
      (∀ (i : Nat) (field : Field), c.fields[i]? = some field → field.name ≠ "" →
        (∃ placed, layout.fields[i]? = some placed ∧
          layout.fieldOffset? field.name = some placed.offset) ∧
        ∀ (j : Nat) (other : Field), c.fields[j]? = some other → other.name = field.name → j = i) ∧
      (∀ name, (name = "" ∨ ∀ field ∈ c.fields, field.name ≠ name) →
        layout.fieldOffset? name = none) ∧
      layout.fieldOffsets = ((c.fields.zip layout.fields).filter fun entry =>
        !entry.1.isAnonymous).map (fun entry => (entry.1.name, entry.2.offset)) ∧
      (layout.fieldOffsets.map Prod.fst).Nodup := by
  obtain ⟨hwell, placed, part, hplaced, rfl, parts, steps, hregular⟩ :=
    exists_regular_construction h hc
  have hcovers := layout_covers hc h
  refine ⟨hcovers.fields, FieldGroup.placeAll_inUnit (FieldGroup.ofFields_valid hwell.fields)
    steps.fields, hregular.offsets_sorted hwell, fun i field hfield hname =>
    ⟨?_, fun j other hother hsame => hwell.eq_of_name_eq hfield hother hsame hname⟩,
    fun name hname => ?_, hcovers.fieldOffsets_eq, hcovers.fieldOffsets_nodup hwell⟩
  · obtain ⟨hi, -⟩ := List.getElem?_eq_some_iff.mp hfield
    have hplace := List.getElem?_eq_getElem (hcovers.fields.length_eq ▸ hi)
    refine ⟨_, hplace, ?_⟩
    rw [Layout.fieldOffset?, hcovers.field?_eq_some hwell hfield hplace hname, Option.map_some]
  · rw [Layout.fieldOffset?, hcovers.field?_eq_none hname, Option.map_none]

/-- A header: a field, a run of bit-fields over two units, a marker, and a last field. -/
def packetHeader : TypeTable :=
  { entries := #[
      ⟨"Header", some
        { name := "Header"
          fields := [{ name := "version", type := .char },
            { name := "kind", type := .int, bitWidth := some 20 },
            { name := "", type := .int, bitWidth := some 9 },
            { name := "length", type := .int, bitWidth := some 7 },
            { name := "", type := .int, bitWidth := some 0 },
            { name := "check", type := .short }] }⟩] }

/-- The unnamed bit-field and the marker have their places, but no name finds them. -/
theorem layout_declared_fields_packetHeader :
    let c : Composite :=
      { name := "Header"
        fields := [{ name := "version", type := .char },
          { name := "kind", type := .int, bitWidth := some 20 },
          { name := "", type := .int, bitWidth := some 9 },
          { name := "length", type := .int, bitWidth := some 7 },
          { name := "", type := .int, bitWidth := some 0 },
          { name := "check", type := .short }] }
    let layout : Layout :=
      { size := 16, align := 4, dataSize := 14, dispatch := none
        fields := [⟨"version", 0, 1, none⟩, ⟨"kind", 4, 4, some ⟨0, 20⟩⟩,
          ⟨"", 4, 4, some ⟨20, 9⟩⟩, ⟨"length", 8, 4, some ⟨0, 7⟩⟩, ⟨"", 12, 0, some ⟨0, 0⟩⟩,
          ⟨"check", 12, 2, none⟩]
        bases := [] }
    packetHeader.get? ⟨0⟩ = some c ∧ packetHeader.layout .lp64 ⟨0⟩ = .ok layout ∧
      layout.fieldOffset? "length" = some 8 ∧ layout.fieldOffset? "" = none ∧
      layout.fieldOffsets = [("version", 0), ("kind", 4), ("length", 8), ("check", 12)] ∧
      (layout.fieldOffsets.map Prod.fst).Nodup := by
  intro c layout
  have hc : packetHeader.get? ⟨0⟩ = some c := by decide
  have hlayout : packetHeader.layout .lp64 ⟨0⟩ = .ok layout := by decide +kernel
  obtain ⟨-, -, -, hfound, hnone, hlisted, hnodup⟩ :=
    layout_declared_fields packetHeader .lp64 ⟨0⟩ c layout hc hlayout
  obtain ⟨⟨placed, hplaced, hoffset⟩, -⟩ :=
    hfound 3 { name := "length", type := .int, bitWidth := some 7 } rfl (by decide)
  cases hplaced
  exact ⟨hc, hlayout, hoffset, hnone "" (Or.inl rfl), hlisted, hnodup⟩

end TypeTable

end ObjectLayout
