import ObjectLayout.Proofs.Occupancy
import ObjectLayout.Proofs.Rounding

/-!
# Regular placements

No move of a placement takes the frontier back, whatever the alignments are. So the offsets of a
placement are in order, from the dispatch slot to the rounded size, and a base lies before the end
of the data. Where the pointer size is a power of two, every alignment is one; then the size of a
core is never above that of the complete object, and a base lies where its core asks to lie.
-/
namespace ObjectLayout

lemma Site.granted_isPowerOfTwo {site : Site} {align : Nat}
    (hsite : ∀ clamp ∈ site.packing, clamp.isPowerOfTwo) (h : align.isPowerOfTwo) :
    (site.granted align).isPowerOfTwo := by
  unfold Site.granted
  split
  · next clamp hclamp => exact isPowerOfTwo_min h (hsite clamp hclamp)
  · exact h

/-- The frontier goes on, and its alignment stays a power of two where pointers have such a size. -/
structure Frontier.Grows (target : Target) (frontier next : Frontier) : Prop where
  offset : frontier.offset ≤ next.offset
  align : frontier.align ≤ next.align
  power : target.pointerSize.isPowerOfTwo → frontier.align.isPowerOfTwo → next.align.isPowerOfTwo

namespace Frontier.Grows

variable {target : Target} {frontier next last : Frontier}

lemma refl (target : Target) (frontier : Frontier) : frontier.Grows target frontier :=
  ⟨le_refl _, le_refl _, fun _ hpower => hpower⟩

lemma trans (h : frontier.Grows target next) (h' : next.Grows target last) :
    frontier.Grows target last :=
  ⟨h.offset.trans h'.offset, h.align.trans h'.align,
    fun hpointer hpower => h'.power hpointer (h.power hpointer hpower)⟩

end Frontier.Grows

/-- What a placement states of its core is in order. -/
structure Core.Regular (target : Target) (core : Core) : Prop where
  pos : 0 < core.align
  align : target.pointerSize.isPowerOfTwo → core.align.isPowerOfTwo
  size : core.size = if core.dataSize = 0 then 0 else roundUp core.dataSize core.align
  slot : ∀ offset ∈ core.dispatch, offset + target.pointerSize ≤ core.dataSize

lemma Core.Regular.dataSize_le_size {target : Target} {core : Core} (h : core.Regular target) :
    core.dataSize ≤ core.size := by
  rw [h.size]
  split
  · next hempty => exact hempty.le
  · exact le_roundUp _ _

/-- A slot that takes room is in data. -/
lemma Core.Regular.dataSize_pos {target : Target} {core : Core} (h : core.Regular target)
    (hpointer : 0 < target.pointerSize) (hslot : core.dispatch.isSome) : 0 < core.dataSize := by
  obtain ⟨slot, hslot⟩ := Option.isSome_iff_exists.mp hslot
  have := h.slot slot hslot
  omega

namespace Draft

variable {target : Target} {site : Site} {draft next last : Draft} {type : TypeId}
  {sharing : Sharing} {core : Core} {start size : Nat} {bytes : TypeId × Core → Nat}
  {cores : List (TypeId × Core)}

/-- No base takes the frontier back. -/
lemma Embeds.offset_le (h : Embeds site type sharing core size draft next start) :
    draft.frontier.offset ≤ next.frontier.offset := by
  rcases Nat.eq_zero_or_pos core.dataSize with hempty | hfilled
  · obtain ⟨hstart, hoffset⟩ := h.empty hempty
    omega
  · obtain ⟨hstart, hoffset⟩ := h.filled hfilled
    have hle := le_roundUp draft.frontier.offset (site.granted core.align)
    omega

lemma embedAll_offset_le (h : draft.embedAll site sharing bytes cores = .ok last) :
    draft.frontier.offset ≤ last.frontier.offset := by
  refine embedAll_invariant (P := fun now => draft.frontier.offset ≤ now.frontier.offset) h
    (fun core hmem now next start hembeds hle => ?_) (le_refl _)
  exact hle.trans hembeds.offset_le

lemma Embeds.grows (h : Embeds site type sharing core size draft next start)
    (hsite : ∀ clamp ∈ site.packing, clamp.isPowerOfTwo)
    (hcore : target.pointerSize.isPowerOfTwo → core.align.isPowerOfTwo) :
    draft.frontier.Grows target next.frontier := by
  refine ⟨h.offset_le, ?_, fun hpointer hpower => ?_⟩
  · rw [h.align]
    exact le_max_left _ _
  · rw [h.align]
    exact isPowerOfTwo_max hpower (Site.granted_isPowerOfTwo hsite (hcore hpointer))

lemma embedAll_grows (h : draft.embedAll site sharing bytes cores = .ok last)
    (hsite : ∀ clamp ∈ site.packing, clamp.isPowerOfTwo)
    (hcores : ∀ core ∈ cores, core.2.Regular target) :
    draft.frontier.Grows target last.frontier := by
  refine embedAll_invariant (P := fun now => draft.frontier.Grows target now.frontier) h
    (fun core hmem now next start hembeds hgrown => ?_) (.refl target _)
  exact hgrown.trans (hembeds.grows hsite (hcores core hmem).align)

/-- A base has the size of the core that it is made from, and is aligned for it if there is data and
its alignment is granted as a power of two; the core keeps to an alignment and to an end of data. -/
structure Bears (site : Site) (align dataSize : Nat) (core : TypeId × Core)
    (base : PlacedBase) : Prop where
  type : base.type = core.1
  size : base.size = core.2.size
  aligned : 0 < core.2.dataSize → (site.granted core.2.align).isPowerOfTwo →
    site.granted core.2.align ∣ base.offset
  align_le : site.granted core.2.align ≤ align
  within : base.offset + core.2.dataSize ≤ dataSize

lemma Embeds.bears {core : TypeId × Core} {start size : Nat} {next : Draft}
    (h : Embeds site core.1 sharing core.2 size draft next start)
    (hroom : core.2.dataSize ≤ size) : Bears site next.frontier.align next.frontier.offset core
      ⟨core.1, start, core.2.size, sharing⟩ := by
  refine ⟨rfl, rfl, fun hfilled hpower => ?_, by rw [h.align]; exact le_max_right _ _, ?_⟩
  · dsimp only
    rw [(h.filled hfilled).1]
    exact dvd_roundUp hpower _
  · dsimp only
    rcases Nat.eq_zero_or_pos core.2.dataSize with hempty | hfilled
    · have := (h.empty hempty).2
      omega
    · have := (h.filled hfilled).2
      omega

lemma Bears.mono {align dataSize align' dataSize' : Nat} {core : TypeId × Core} {base : PlacedBase}
    (h : Bears site align dataSize core base) (halign : align ≤ align')
    (hdata : dataSize ≤ dataSize') : Bears site align' dataSize' core base :=
  ⟨h.type, h.size, h.aligned, h.align_le.trans halign, h.within.trans hdata⟩

lemma embed_regular {core : TypeId × Core} {size : Nat} {next : Draft}
    (h : draft.embed site core.1 sharing core.2 size = .ok next) (hcore : core.2.Regular target) :
    ∃ start, Embeds site core.1 sharing core.2 size draft next start ∧
      next.bases = draft.bases ++ [⟨core.1, start, core.2.size, sharing⟩] := by
  obtain ⟨start, hembeds⟩ := embed_eq_ok h
  refine ⟨start, hembeds, ?_⟩
  rw [hembeds.bases, hcore.size]
  split <;> rfl

/-- The bases lie as their cores ask for, up to the last frontier. -/
lemma embedAll_bears (h : draft.embedAll site sharing bytes cores = .ok last)
    (hsite : ∀ clamp ∈ site.packing, clamp.isPowerOfTwo)
    (hcores : ∀ core ∈ cores, core.2.Regular target)
    (hroom : ∀ core ∈ cores, core.2.dataSize ≤ bytes core) :
    ∃ bases, last.bases = draft.bases ++ bases ∧
      List.Forall₂ (Bears site last.frontier.align last.frontier.offset) cores bases := by
  induction cores generalizing draft with
  | nil =>
    cases h
    exact ⟨[], (List.append_nil _).symm, .nil⟩
  | cons core cores ih =>
    obtain ⟨next, hnext, h⟩ := foldlM_cons_eq_ok.mp h
    obtain ⟨hcore, hcores⟩ := List.forall_mem_cons.mp hcores
    obtain ⟨hhead, hroom⟩ := List.forall_mem_cons.mp hroom
    obtain ⟨start, hembeds, hlisted⟩ := embed_regular hnext hcore
    obtain ⟨bases, hbases, hbears⟩ := ih h hcores hroom
    have hgrows := embedAll_grows h hsite hcores
    refine ⟨_ :: bases, by rw [hbases, hlisted, List.append_assoc]; rfl, .cons ?_ hbears⟩
    exact (hembeds.bears hhead).mono hgrows.align hgrows.offset

/-- A slot that lies before the frontier, or within the data of a core, lies before the last
frontier. -/
lemma embedAll_slot (h : draft.embedAll site sharing bytes cores = .ok last)
    (hcores : ∀ core ∈ cores, core.2.Regular target)
    (hroom : ∀ core ∈ cores, core.2.dataSize ≤ bytes core)
    (hdraft : ∀ offset ∈ draft.dispatch, offset + target.pointerSize ≤ draft.frontier.offset) :
    ∀ offset ∈ last.dispatch, offset + target.pointerSize ≤ last.frontier.offset := by
  refine embedAll_invariant (P := fun now => ∀ offset ∈ now.dispatch,
    offset + target.pointerSize ≤ now.frontier.offset) h
    (fun core hmem now next start hembeds hnow offset hoffset => ?_) hdraft
  have hgrows := hembeds.offset_le
  rw [hembeds.dispatch, Option.mem_def, Option.or_eq_some_iff, Option.map_eq_some_iff] at hoffset
  rcases hoffset with hold | ⟨-, inner, hinner, rfl⟩
  · exact (hnow offset hold).trans hgrows
  have hslot := (hcores core hmem).slot inner (Core.dispatch_of_brings hinner)
  have hfits := hroom core hmem
  rcases Nat.eq_zero_or_pos core.2.dataSize with hempty | hfilled
  · have := (hembeds.empty hempty).2
    omega
  · have := (hembeds.filled hfilled).2
    omega

end Draft

namespace BitPacking

variable {unitBits position : Nat} {items : List BitItem}

lemma le_finish (hunit : 0 < unitBits) : position ≤ finish unitBits position items := by
  induction items generalizing position with
  | nil => exact le_refl _
  | cons item items ih =>
    have hstart := le_start hunit position item.width
    have hrest := @ih (start unitBits position item.width + item.width)
    rw [finish]
    omega

lemma le_finish_of_mem (hunit : 0 < unitBits) {bit : BitPlace}
    (h : bit ∈ assign unitBits position items) :
    bit.bitOffset + bit.width ≤ finish unitBits position items := by
  induction items generalizing position with
  | nil => cases h
  | cons item items ih =>
    rw [assign] at h
    rw [finish]
    rcases List.mem_cons.mp h with rfl | hmem
    · exact le_finish hunit
    · exact ih hmem

end BitPacking

namespace FieldGroup

variable {target : Target} {site : Site} {part : TypeId → Except Rejection Placed}
  {extent : FieldType → Except Rejection (Nat × Nat)} {frontier next last : Frontier}
  {placed : List PlacedField} {groups : List FieldGroup}

/-- The alignment that placing the group rounds to is a power of two. -/
def Regular (extent : FieldType → Except Rejection (Nat × Nat)) : FieldGroup → Prop
  | .plain field => ∀ size natural, extent field.type = .ok (size, natural) →
      (max natural (field.forcedAlign.getD 1)).isPowerOfTwo
  | .marker field => field.storageUnit.isPowerOfTwo
  | .run unit _ => unit.isPowerOfTwo

lemma storageUnit_isPowerOfTwo {field : Field} (h : field.WellFormed target)
    (hbits : field.bitWidth.isSome) : field.storageUnit.isPowerOfTwo := by
  obtain ⟨⟨align, htype⟩, -⟩ := h.storageUnit hbits
  refine (h.natural field.storageUnit ?_).1
  rw [Field.scalarAlign?, htype]
  simp [Field.isBitField, hbits]

lemma forcedAlign_isPowerOfTwo {field : Field} (h : field.WellFormed target) :
    (field.forcedAlign.getD 1).isPowerOfTwo := by
  cases hforced : field.forcedAlign with
  | none => exact Nat.isPowerOfTwo_one
  | some forced => exact h.forced forced hforced

lemma Valid.regular {group : FieldGroup} (h : group.Valid target)
    (hpointer : target.pointerSize.isPowerOfTwo)
    (hparts : ∀ field ∈ group.fields, ∀ id, field.type = .composite id →
      ∀ p, part id = .ok p → p.layout.align.isPowerOfTwo) :
    group.Regular (Composite.extent target part) := by
  cases group with
  | marker field => exact storageUnit_isPowerOfTwo h.2 (by rw [h.1]; rfl)
  | run unit fields =>
    obtain ⟨-, hne, hfields⟩ := h
    obtain ⟨field, hmem⟩ := List.exists_mem_of_ne_nil fields hne
    obtain ⟨hunit, ⟨width, hbits⟩, hfield⟩ := hfields field hmem
    rw [Regular, ← hunit]
    exact storageUnit_isPowerOfTwo hfield (by rw [hbits]; rfl)
  | plain field =>
    obtain ⟨hbits, hfield⟩ := h
    intro size natural hextent
    refine isPowerOfTwo_max ?_ (forcedAlign_isPowerOfTwo hfield)
    cases htype : field.type with
    | scalar declared align =>
      rw [htype] at hextent
      cases hextent
      refine (hfield.natural natural ?_).1
      simp [Field.scalarAlign?, htype, Field.isBitField, hbits]
    | pointer =>
      rw [htype] at hextent
      cases hextent
      exact hpointer
    | composite id =>
      rw [htype] at hextent
      obtain ⟨p, hp, hextent⟩ := bind_eq_ok.mp hextent
      cases hextent
      exact hparts field (List.mem_singleton_self field) id htype p hp

/-- The unit of a bit lies within the region of its run. -/
lemma placeBit_le {unit : Nat} (hunit : 0 < unit) (start : Nat) {items : List BitItem}
    {bit : BitPlace} (h : bit ∈ (PackedRun.ofMembers unit items).bits) :
    (placeBit start unit bit).offset ≤ start + (PackedRun.ofMembers unit items).size := by
  have hbit := BitPacking.le_finish_of_mem (Nat.mul_pos hunit (by decide : 0 < 8)) h
  have hsize := PackedRun.size_ofMembers hunit items
  have hunits := Nat.div_mul_le_self bit.bitOffset (unit * 8)
  rw [← Nat.mul_assoc] at hunits
  dsimp only [placeBit]
  omega

/-- No group takes the frontier back, and its fields begin before the end of it. -/
lemma place_offset_le {group : FieldGroup} (hvalid : group.Valid target)
    (h : group.place site extent frontier = .ok (next, placed)) :
    frontier.offset ≤ next.offset ∧ ∀ field ∈ placed, field.offset ≤ next.offset := by
  cases group with
  | plain field =>
    obtain ⟨size, natural, hextent, start, hstart, rfl, rfl⟩ := place_plain_eq_ok h
    have hle : frontier.offset ≤ start := hstart ▸ le_roundUp _ _
    refine ⟨?_, by simp⟩
    dsimp only
    omega
  | marker field =>
    obtain ⟨rfl, rfl⟩ := place_marker_eq_ok h
    exact ⟨le_roundUp _ _, by simp⟩
  | run unit fields =>
    obtain ⟨start, hstart, rfl, rfl⟩ := place_run_eq_ok h
    have hle : frontier.offset ≤ start := hstart ▸ le_roundUp _ _
    refine ⟨?_, List.forall_mem_map.mpr fun bit hbit => placeBit_le hvalid.1 start hbit⟩
    dsimp only
    omega

/-- Placing fields takes the frontier on, past every field. -/
lemma placeAll_offset_le (hvalid : ∀ group ∈ groups, group.Valid target)
    (h : placeAll site extent frontier groups = .ok (last, placed)) :
    frontier.offset ≤ last.offset ∧ ∀ field ∈ placed, field.offset ≤ last.offset := by
  induction groups generalizing frontier placed with
  | nil =>
    cases h
    exact ⟨le_refl _, by simp⟩
  | cons group groups ih =>
    obtain ⟨next, first, others, hgroup, hrest, rfl⟩ := placeAll_cons_eq_ok h
    obtain ⟨hhead, htail⟩ := List.forall_mem_cons.mp hvalid
    obtain ⟨hle, hfirst⟩ := place_offset_le hhead hgroup
    obtain ⟨hleRest, hothers⟩ := ih htail hrest
    refine ⟨hle.trans hleRest, fun field hmem => ?_⟩
    rcases List.mem_append.mp hmem with hmem | hmem
    · exact (hfirst field hmem).trans hleRest
    · exact hothers field hmem

/-- The alignment stays a power of two where all that is asked for are. -/
lemma place_align_isPowerOfTwo {group : FieldGroup} (hregular : group.Regular extent)
    (hsite : ∀ clamp ∈ site.packing, clamp.isPowerOfTwo)
    (h : group.place site extent frontier = .ok (next, placed))
    (hpower : frontier.align.isPowerOfTwo) : next.align.isPowerOfTwo := by
  cases group with
  | plain field =>
    obtain ⟨size, natural, hextent, start, -, rfl, -⟩ := place_plain_eq_ok h
    exact isPowerOfTwo_max hpower
      (Site.granted_isPowerOfTwo hsite (hregular size natural hextent))
  | marker field =>
    obtain ⟨rfl, -⟩ := place_marker_eq_ok h
    exact hpower
  | run unit fields =>
    obtain ⟨start, -, rfl, -⟩ := place_run_eq_ok h
    exact isPowerOfTwo_max hpower (Site.granted_isPowerOfTwo hsite hregular)

lemma placeAll_align_isPowerOfTwo (hregular : ∀ group ∈ groups, group.Regular extent)
    (hsite : ∀ clamp ∈ site.packing, clamp.isPowerOfTwo)
    (h : placeAll site extent frontier groups = .ok (last, placed))
    (hpower : frontier.align.isPowerOfTwo) : last.align.isPowerOfTwo := by
  induction groups generalizing frontier placed with
  | nil =>
    cases h
    exact hpower
  | cons group groups ih =>
    obtain ⟨next, first, others, hgroup, hrest, rfl⟩ := placeAll_cons_eq_ok h
    obtain ⟨hhead, htail⟩ := List.forall_mem_cons.mp hregular
    exact ih htail hrest (place_align_isPowerOfTwo hhead hsite hgroup hpower)

lemma placeAll_grows (hvalid : ∀ group ∈ groups, group.Valid target)
    (hregular : target.pointerSize.isPowerOfTwo → ∀ group ∈ groups, group.Regular extent)
    (hsite : ∀ clamp ∈ site.packing, clamp.isPowerOfTwo)
    (h : placeAll site extent frontier groups = .ok (last, placed)) :
    frontier.Grows target last :=
  ⟨(placeAll_offset_le hvalid h).1, ((placeAll_align_le_iff h).mp (le_refl _)).1,
    fun hpointer hpower => placeAll_align_isPowerOfTwo (hregular hpointer) hsite h hpower⟩

end FieldGroup

/-- What a placement states of its core and of its layout is in order. -/
structure Placed.Regular (target : Target) (placed : Placed) : Prop where
  core : placed.core.Regular target
  align : target.pointerSize.isPowerOfTwo → placed.layout.align.isPowerOfTwo
  align_le : placed.core.align ≤ placed.layout.align
  dataSize_le : placed.core.dataSize ≤ placed.layout.dataSize
  size : placed.layout.size = roundUp (max placed.layout.dataSize 1) placed.layout.align

namespace Placed.Regular

variable {target : Target} {placed : Placed}

lemma dataSize_le_size (h : placed.Regular target) :
    placed.layout.dataSize ≤ placed.layout.size := by
  rw [h.size]
  exact (le_max_left _ _).trans (le_roundUp _ _)

lemma core_size_le (h : placed.Regular target) (hpointer : target.pointerSize.isPowerOfTwo) :
    placed.core.size ≤ placed.layout.size := by
  rw [h.core.size, h.size]
  split
  · exact Nat.zero_le _
  · exact roundUp_le_roundUp (h.dataSize_le.trans (le_max_left _ _)) (h.core.align hpointer)
      (h.align hpointer) h.align_le

end Placed.Regular

namespace Composite

variable {target : Target} {isPod : TypeId → Bool} {part : TypeId → Except Rejection Placed}
  {c : Composite} {placed : Placed}

lemma forceAlign_grows (h : c.WellFormed target) (frontier : Frontier) :
    frontier.Grows target (c.forceAlign frontier) := by
  unfold forceAlign
  cases hforced : c.forcedAlign with
  | none => exact .refl target _
  | some forced =>
    exact ⟨le_refl _, le_max_left _ _,
      fun _ hpower => isPowerOfTwo_max hpower (h.forced forced hforced)⟩

/-- No field is without size where pointers are not. -/
lemma extent_pos {field : Field} (hfield : field.WellFormed target)
    (hpointer : 0 < target.pointerSize)
    (hparts : ∀ id, field.type = .composite id → ∀ p, part id = .ok p → p.Regular target)
    {size natural : Nat} (h : extent target part field.type = .ok (size, natural)) : 0 < size := by
  cases htype : field.type with
  | scalar declared align =>
    rw [htype] at h
    cases h
    exact hfield.size_pos size natural htype
  | pointer =>
    rw [htype] at h
    cases h
    exact hpointer
  | composite id =>
    rw [htype] at h
    obtain ⟨p, hp, h⟩ := bind_eq_ok.mp h
    cases h
    rw [(hparts id htype p hp).size]
    exact (lt_max_of_lt_right Nat.one_pos).trans_le (le_roundUp _ _)

/-- A slot that a type opens is the first thing in it. -/
lemma openSlot_regular {owned : List (TypeId × Core)} {opened : Draft} (h : c.WellFormed target)
    (hopen : c.openSlot target owned = .ok opened) :
    0 < opened.frontier.align ∧
      (target.pointerSize.isPowerOfTwo → opened.frontier.align.isPowerOfTwo) ∧
      ∀ offset ∈ opened.dispatch, offset + target.pointerSize ≤ opened.frontier.offset := by
  rw [openSlot_eq_ok hopen]
  split
  · refine ⟨lt_max_of_lt_left Nat.one_pos, fun hpointer => isPowerOfTwo_max Nat.isPowerOfTwo_one
      (Site.granted_isPowerOfTwo h.packing hpointer), ?_⟩
    rintro offset ⟨⟩
    exact le_refl _
  · exact ⟨Nat.one_pos, fun _ => Nat.isPowerOfTwo_one, by simp⟩

/-- Whoever refers to regular placements only places its fields regularly. -/
lemma groups_regular (hwell : c.WellFormed target) (hpointer : target.pointerSize.isPowerOfTwo)
    (hparts : ∀ id ∈ c.references, ∀ p, part id = .ok p → p.Regular target) :
    ∀ group ∈ FieldGroup.ofFields c.fields, group.Regular (extent target part) := by
  intro group hgroup
  refine (FieldGroup.ofFields_valid hwell.fields group hgroup).regular hpointer ?_
  intro field hfield id htype p hp
  have hmem : field ∈ (FieldGroup.ofFields c.fields).flatMap FieldGroup.fields :=
    List.mem_flatMap.mpr ⟨group, hgroup, hfield⟩
  rw [FieldGroup.flatMap_fields_ofFields] at hmem
  exact (hparts id (mem_references_of_field hmem htype) p hp).align hpointer

namespace Construction

/-- The placements that a placement takes from are regular. -/
def PartsRegular (_ : Construction target isPod part c placed) : Prop :=
  ∀ id p, id ∈ c.references ∨ id ∈ placed.shared → part id = .ok p → p.Regular target

variable {steps : Construction target isPod part c placed}

lemma PartsRegular.owned (h : steps.PartsRegular) :
    ∀ core ∈ steps.owned, core.2.Regular target :=
  steps.forall_owned fun base hmem p hp =>
    (h base.type p (Or.inl (mem_references_of_ownedBase hmem)) hp).core

lemma PartsRegular.hoisted (h : steps.PartsRegular) :
    ∀ core ∈ steps.hoisted, core.2.Regular target :=
  steps.forall_hoisted fun id hmem p hp => (h id p (Or.inr hmem) hp).core

/-- Owned bases take at least their data. -/
lemma PartsRegular.owned_room (h : steps.PartsRegular) :
    ∀ core ∈ steps.owned, core.2.dataSize ≤ ownedBytes target isPod core :=
  fun core hmem => dataSize_le_ownedBytes target isPod (h.owned core hmem).dataSize_le_size

lemma PartsRegular.groups (h : steps.PartsRegular) (hwell : c.WellFormed target)
    (hpointer : target.pointerSize.isPowerOfTwo) :
    ∀ group ∈ FieldGroup.ofFields c.fields, group.Regular (extent target part) :=
  groups_regular hwell hpointer fun id href p => h id p (Or.inl href)

/-- The frontiers after the steps of a placement follow one another. -/
structure Ordered (steps : Construction target isPod part c placed) : Prop where
  based : steps.opened.frontier.Grows target steps.based.frontier
  fields : steps.based.frontier.Grows target steps.frontier
  forced : steps.frontier.Grows target (c.forceAlign steps.frontier)
  complete : (c.forceAlign steps.frontier).Grows target steps.complete.frontier

lemma PartsRegular.ordered (h : steps.PartsRegular) (hwell : c.WellFormed target) :
    steps.Ordered :=
  ⟨Draft.embedAll_grows steps.bases hwell.packing h.owned,
    FieldGroup.placeAll_grows (FieldGroup.ofFields_valid hwell.fields) (h.groups hwell)
      hwell.packing steps.fields,
    forceAlign_grows hwell _, Draft.embedAll_grows steps.shared hwell.packing h.hoisted⟩

/-- What is placed from regular parts is regular. -/
theorem PartsRegular.regular (h : steps.PartsRegular) (hwell : c.WellFormed target) :
    placed.Regular target := by
  have hordered := h.ordered hwell
  obtain ⟨hpos, hopened, hslot⟩ := openSlot_regular hwell steps.slot
  have hcore : target.pointerSize.isPowerOfTwo → (c.forceAlign steps.frontier).align.isPowerOfTwo :=
    fun hpointer => hordered.forced.power hpointer
      (hordered.fields.power hpointer (hordered.based.power hpointer (hopened hpointer)))
  have hdispatch := Draft.embedAll_slot steps.bases h.owned h.owned_room hslot
  have hcomplete := hordered.complete.offset
  rw [forceAlign_offset] at hcomplete
  constructor
  case core =>
    rw [steps.core]
    exact ⟨hpos.trans_le (hordered.based.align.trans (hordered.fields.align.trans
      hordered.forced.align)), hcore, rfl, fun offset hoffset =>
      (hdispatch offset hoffset).trans hordered.fields.offset⟩
  case align =>
    rw [steps.align_eq]
    exact fun hpointer => hordered.complete.power hpointer (hcore hpointer)
  case align_le =>
    rw [steps.core, steps.align_eq]
    exact hordered.complete.align
  case dataSize_le => rwa [steps.core, steps.dataSize_eq]
  case size => rw [steps.size_eq, steps.dataSize_eq, steps.align_eq]

lemma mem_references_of_ownedBases (steps : Construction target isPod part c placed)
    {base : PlacedBase} (hmem : base ∈ placed.layout.ownedBases) : base.type ∈ c.references := by
  have htype := List.mem_map_of_mem (f := PlacedBase.type) hmem
  rw [steps.bases_split.2.2.1] at htype
  obtain ⟨b, hb, heq⟩ := List.mem_map.mp htype
  exact heq ▸ mem_references_of_base (List.mem_of_mem_filter hb)

lemma mem_shared_of_sharedBases (steps : Construction target isPod part c placed)
    {base : PlacedBase} (hmem : base ∈ placed.layout.sharedBases) : base.type ∈ placed.shared := by
  rw [← steps.bases_split.2.2.2]
  exact List.mem_map_of_mem hmem

/-- An owned base lies as its core asks for, within the core of the type. -/
lemma PartsRegular.owned_bears (h : steps.PartsRegular) (hwell : c.WellFormed target)
    {base : PlacedBase}
    (hmem : base ∈ placed.layout.ownedBases) : ∃ p, part base.type = .ok p ∧
      Draft.Bears (c.site target) placed.core.align placed.core.dataSize (base.type, p.core)
        base := by
  have hordered := h.ordered hwell
  obtain ⟨bases, hbases, hbears⟩ :=
    Draft.embedAll_bears steps.bases hwell.packing h.owned h.owned_room
  rw [steps.opened_bases, List.nil_append, ← steps.bases_split.1] at hbases
  rw [hbases] at hmem
  obtain ⟨core, hcore, hbase⟩ := exists_of_mem_right hbears hmem
  obtain ⟨b, -, p, hp, rfl⟩ := exists_of_mem_right steps.ownedLent hcore
  have htype : base.type = b.type := hbase.type
  rw [htype]
  refine ⟨p, hp, hbase.mono ?_ ?_⟩
  · rw [steps.core]
    exact hordered.fields.align.trans hordered.forced.align
  · rw [steps.core]
    exact hordered.fields.offset

/-- A shared base lies as its core asks for, within the complete object. -/
lemma PartsRegular.shared_bears (h : steps.PartsRegular) (hwell : c.WellFormed target)
    {base : PlacedBase} (hmem : base ∈ placed.layout.sharedBases) : ∃ p, part base.type = .ok p ∧
      Draft.Bears (c.site target) placed.layout.align placed.layout.dataSize (base.type, p.core)
        base := by
  obtain ⟨bases, hbases, hbears⟩ := Draft.embedAll_bears steps.shared hwell.packing h.hoisted
    fun core hcore => (h.hoisted core hcore).dataSize_le_size
  have hshares : placed.layout.sharedBases = bases :=
    List.append_cancel_left (steps.bases_split.2.1.symm.trans hbases)
  rw [hshares] at hmem
  obtain ⟨core, hcore, hbase⟩ := exists_of_mem_right hbears hmem
  obtain ⟨id, -, p, hp, rfl⟩ := exists_of_mem_right steps.hoistedLent hcore
  have htype : base.type = id := hbase.type
  rw [htype, steps.align_eq, steps.dataSize_eq]
  exact ⟨p, hp, hbase⟩

/-- A base lies, with the data of its core, before the end of the data. -/
lemma PartsRegular.base_within (h : steps.PartsRegular) (hwell : c.WellFormed target)
    {base : PlacedBase}
    (hmem : base ∈ placed.layout.bases) : ∃ p, part base.type = .ok p ∧
      base.offset + p.core.dataSize ≤ placed.layout.dataSize := by
  obtain ⟨howned, hcomplete, -, -⟩ := steps.bases_split
  rw [steps.bases_eq, hcomplete, ← howned, List.mem_append] at hmem
  rcases hmem with hmem | hmem
  · obtain ⟨p, hp, hbears⟩ := h.owned_bears hwell hmem
    exact ⟨p, hp, hbears.within.trans (h.regular hwell).dataSize_le⟩
  · obtain ⟨p, hp, hbears⟩ := h.shared_bears hwell hmem
    exact ⟨p, hp, hbears.within⟩

/-- A field begins before the end of the data, or there. -/
lemma PartsRegular.field_within (h : steps.PartsRegular) (hwell : c.WellFormed target)
    {field : PlacedField} (hmem : field ∈ placed.layout.fields) :
    field.offset ≤ placed.layout.dataSize := by
  have hcomplete := (h.ordered hwell).complete.offset
  rw [forceAlign_offset] at hcomplete
  rw [steps.dataSize_eq]
  exact ((FieldGroup.placeAll_offset_le (FieldGroup.ofFields_valid hwell.fields)
    steps.fields).2 field hmem).trans hcomplete

end Construction

end Composite

namespace TypeTable

variable {table : TypeTable} {target : Target} {id : TypeId} {align : Nat} {placed : Placed}

/-- Every placed type is regular. -/
theorem PlacedAs.regular (h : table.PlacedAs target id (.ok placed))
    (haccepted : table.Accepted target id align) : placed.Regular target := by
  induction h using ok_induction generalizing align with
  | @step id placed c part h defined parts steps ih =>
    have hwell := haccepted.wellFormed defined
    have hparts : steps.PartsRegular := by
      intro other p hother hp
      have hbelow := h.below_of_part defined hother
      obtain ⟨align', haccepted'⟩ := haccepted.reaches hbelow.reaches
      exact ih other hbelow p hp haccepted'
    exact hparts.regular hwell

/-- A placement takes from regular placements. -/
lemma PlacedAs.partsRegular {c : Composite} {part : TypeId → Except Rejection Placed}
    (h : table.PlacedAs target id (.ok placed)) (haccepted : table.Accepted target id align)
    (hc : table.get? id = some c)
    (parts : ∀ other, table.Below id other → table.PlacedAs target other (part other))
    (steps : Composite.Construction target table.isPod part c placed) : steps.PartsRegular := by
  intro other p hother hp
  have hbelow := h.below_of_part hc hother
  obtain ⟨align', haccepted'⟩ := haccepted.reaches hbelow.reaches
  exact PlacedAs.regular (hp ▸ parts other hbelow) haccepted'

end TypeTable

/-- Pointers of three bytes. Nothing checks the pointer size, and three is no power of two: to round
to it clears a single bit of the sum. -/
def Target.odd : Target := { Target.lp64 with pointerSize := 3 }

namespace Composite

/-- A pointer on its own. -/
def bareLink : Composite := { name := "Link", fields := [{ name := "next", type := .pointer }] }

/-- A mark and a pointer behind it. -/
def markedLink : Composite :=
  { name := "Link"
    fields := [{ name := "mark", type := .char }, { name := "next", type := .pointer }] }

end Composite

end ObjectLayout
