import ObjectLayout.Proofs.AddressBounds
import ObjectLayout.Proofs.DataEnd

/-!
# Where bases end

A base that hands its tail padding on may end behind the object that owns it. How far depends on its
alignment. An alignment that is no power of two is that of pointers, and whoever asks for it holds a
pointer: then the padding is less than the data. Any other alignment of a core with a size is at
most half of the words. So in an object of no more bytes than the other half has, the end of a base
is a word too.
-/
namespace ObjectLayout

/-- The alignment is a power of two, or no larger than what is placed. -/
def Moderate (align offset : Nat) : Prop := align.isPowerOfTwo ∨ align ≤ offset

namespace Moderate

variable {align other offset offset' : Nat}

lemma mono (h : Moderate align offset) (hle : offset ≤ offset') : Moderate align offset' :=
  h.imp_right fun hdata => hdata.trans hle

protected lemma max (h : Moderate align offset) (h' : Moderate other offset) :
    Moderate (max align other) offset := by
  rcases le_total align other with hle | hle
  · rwa [max_eq_right hle]
  · rwa [max_eq_left hle]

lemma granted {site : Site} (hsite : ∀ clamp ∈ site.packing, clamp.isPowerOfTwo)
    (h : Moderate align offset) : Moderate (site.granted align) offset :=
  h.imp (Site.granted_isPowerOfTwo hsite) (site.granted_le align).trans

/-- Rounding up to a moderate alignment adds less than half of the words, or less than there is. -/
lemma roundUp_lt (h : Moderate align offset) (hpos : 0 < align) (hoffset : 0 < offset)
    (hbound : roundUp offset align < UInt64.size) :
    roundUp offset align < offset + max (2 ^ 63) offset := by
  have hround := ObjectLayout.roundUp_lt hpos offset
  have hle := le_roundUp offset align
  rcases h with ⟨k, rfl⟩ | hdata
  · -- A size that is a multiple of the alignment is a bound for it.
    have hdvd := Nat.le_of_dvd (hoffset.trans_le hle) (dvd_roundUp ⟨k, rfl⟩ offset)
    have hk : k < 64 := (Nat.pow_lt_pow_iff_right (by decide)).mp (hdvd.trans_lt hbound)
    have hhalf : 2 ^ k ≤ 2 ^ 63 := Nat.pow_le_pow_right (by decide) (by omega)
    exact hround.trans_le (Nat.add_le_add_left (hhalf.trans (le_max_left _ _)) _)
  · exact hround.trans_le (Nat.add_le_add_left (hdata.trans (le_max_right _ _)) _)

end Moderate

/-- Both alignments of a placement are moderate. -/
structure Placed.Moderate (placed : Placed) : Prop where
  core : ObjectLayout.Moderate placed.core.align placed.core.dataSize
  layout : ObjectLayout.Moderate placed.layout.align placed.layout.dataSize

namespace Draft

variable {target : Target} {site : Site} {sharing : Sharing} {draft last : Draft}
  {bytes : TypeId × Core → Nat} {cores : List (TypeId × Core)}

lemma embedAll_moderate (h : draft.embedAll site sharing bytes cores = .ok last)
    (hsite : ∀ clamp ∈ site.packing, clamp.isPowerOfTwo)
    (hcores : ∀ core ∈ cores, Moderate core.2.align core.2.dataSize)
    (hroom : ∀ core ∈ cores, core.2.dataSize ≤ bytes core)
    (hdraft : Moderate draft.frontier.align draft.frontier.offset) :
    Moderate last.frontier.align last.frontier.offset := by
  refine embedAll_invariant (P := fun now => Moderate now.frontier.align now.frontier.offset) h
    (fun core hmem now next start hembeds hnow => ?_) hdraft
  have hdata : core.2.dataSize ≤ next.frontier.offset := by
    have hfits := hroom core hmem
    rcases Nat.eq_zero_or_pos core.2.dataSize with hempty | hfilled
    · omega
    · have := (hembeds.filled hfilled).2
      omega
  rw [hembeds.align]
  exact (hnow.mono hembeds.offset_le).max ((hcores core hmem).granted hsite |>.mono hdata)

end Draft

namespace FieldGroup

variable {target : Target} {site : Site} {part : TypeId → Except Rejection Placed}
  {frontier next : Frontier} {placed : List PlacedField} {groups : List FieldGroup}

/-- A field asks for an alignment that is no larger than the field, or a power of two. -/
lemma extent_moderate {field : Field} (hfield : field.WellFormed target)
    (hplain : field.isBitField = false)
    (hparts : ∀ id, field.type = .composite id → ∀ p, part id = .ok p →
      Moderate p.layout.align p.layout.size)
    {size natural : Nat} (h : Composite.extent target part field.type = .ok (size, natural)) :
    Moderate natural size := by
  cases htype : field.type with
  | scalar declared align =>
    rw [htype] at h
    cases h
    refine Or.inl (hfield.natural natural ?_).1
    simp [Field.scalarAlign?, htype, hplain]
  | pointer =>
    rw [htype] at h
    cases h
    exact Or.inr (le_refl _)
  | composite id =>
    rw [htype] at h
    obtain ⟨p, hp, h⟩ := bind_eq_ok.mp h
    cases h
    exact hparts id htype p hp

lemma place_moderate {group : FieldGroup} (hvalid : group.Valid target)
    (hsite : ∀ clamp ∈ site.packing, clamp.isPowerOfTwo)
    (hparts : ∀ field ∈ group.fields, ∀ id, field.type = .composite id → ∀ p, part id = .ok p →
      Moderate p.layout.align p.layout.size)
    (h : group.place site (Composite.extent target part) frontier = .ok (next, placed))
    (hfrontier : Moderate frontier.align frontier.offset) : Moderate next.align next.offset := by
  have hmoved := hfrontier.mono (place_offset_le hvalid h).1
  cases group with
  | plain field =>
    obtain ⟨hbits, hfield⟩ := hvalid
    obtain ⟨size, natural, hextent, start, -, rfl, -⟩ := place_plain_eq_ok h
    have hnatural := extent_moderate hfield (by simp [Field.isBitField, hbits])
      (hparts field (List.mem_singleton_self field)) hextent
    have hforced : Moderate (field.forcedAlign.getD 1) size :=
      Or.inl (forcedAlign_isPowerOfTwo hfield)
    exact hmoved.max ((hnatural.max hforced).granted hsite |>.mono (Nat.le_add_left _ _))
  | marker field =>
    obtain ⟨rfl, -⟩ := place_marker_eq_ok h
    exact hmoved
  | run unit fields =>
    obtain ⟨start, -, rfl, -⟩ := place_run_eq_ok h
    obtain ⟨-, hne, hfields⟩ := hvalid
    obtain ⟨field, hmem⟩ := List.exists_mem_of_ne_nil fields hne
    obtain ⟨hunit, ⟨width, hbits⟩, hfield⟩ := hfields field hmem
    have hpower : unit.isPowerOfTwo :=
      hunit ▸ storageUnit_isPowerOfTwo hfield (by rw [hbits]; rfl)
    exact hmoved.max (Or.inl (Site.granted_isPowerOfTwo hsite hpower))

lemma placeAll_moderate (hvalid : ∀ group ∈ groups, group.Valid target)
    (hsite : ∀ clamp ∈ site.packing, clamp.isPowerOfTwo)
    (hparts : ∀ field ∈ groups.flatMap fields, ∀ id, field.type = .composite id →
      ∀ p, part id = .ok p → Moderate p.layout.align p.layout.size)
    (h : placeAll site (Composite.extent target part) frontier groups = .ok (next, placed))
    (hfrontier : Moderate frontier.align frontier.offset) : Moderate next.align next.offset := by
  induction groups generalizing frontier placed with
  | nil =>
    cases h
    exact hfrontier
  | cons group groups ih =>
    obtain ⟨middle, first, others, hgroup, hrest, rfl⟩ := placeAll_cons_eq_ok h
    obtain ⟨hhead, htail⟩ := List.forall_mem_cons.mp hvalid
    rw [List.flatMap_cons, List.forall_mem_append] at hparts
    exact ih htail hparts.2 hrest (place_moderate hhead hsite hparts.1 hgroup hfrontier)

end FieldGroup

namespace Composite.Construction

variable {target : Target} {isPod : TypeId → Bool} {part : TypeId → Except Rejection Placed}
  {c : Composite} {placed : Placed} {steps : Construction target isPod part c placed}

lemma opened_moderate (steps : Construction target isPod part c placed)
    (hwell : c.WellFormed target) :
    Moderate steps.opened.frontier.align steps.opened.frontier.offset := by
  have hone (offset : Nat) : Moderate 1 offset := Or.inl Nat.isPowerOfTwo_one
  rw [openSlot_eq_ok steps.slot]
  split
  · have hpointer : Moderate target.pointerSize target.pointerSize := Or.inr (le_refl _)
    exact (hone _).max ((hpointer.granted hwell.packing).mono (Nat.le_add_left _ _))
  · exact hone 0

/-- What is placed from moderate parts is moderate. -/
theorem PartsRegular.moderate (h : steps.PartsRegular) (hwell : c.WellFormed target)
    (hparts : ∀ id p, id ∈ c.references ∨ id ∈ placed.shared → part id = .ok p → p.Moderate) :
    placed.Moderate := by
  have howned : ∀ core ∈ steps.owned, Moderate core.2.align core.2.dataSize :=
    steps.forall_owned fun base hmem p hp =>
      (hparts base.type p (Or.inl (mem_references_of_ownedBase hmem)) hp).core
  have hhoisted : ∀ core ∈ steps.hoisted, Moderate core.2.align core.2.dataSize :=
    steps.forall_hoisted fun id hmem p hp => (hparts id p (Or.inr hmem) hp).core
  have hfields : ∀ field ∈ (FieldGroup.ofFields c.fields).flatMap FieldGroup.fields,
      ∀ id, field.type = .composite id → ∀ p, part id = .ok p →
        Moderate p.layout.align p.layout.size := by
    rw [FieldGroup.flatMap_fields_ofFields]
    intro field hmem id htype p hp
    have href := mem_references_of_field hmem htype
    exact (hparts id p (Or.inl href) hp).layout.mono (h id p (Or.inl href) hp).dataSize_le_size
  have hbased := Draft.embedAll_moderate steps.bases hwell.packing howned h.owned_room
    (steps.opened_moderate hwell)
  have hplaced := FieldGroup.placeAll_moderate (FieldGroup.ofFields_valid hwell.fields)
    hwell.packing hfields steps.fields hbased
  have hforced : Moderate (c.forceAlign steps.frontier).align steps.frontier.offset := by
    unfold forceAlign
    cases hforced : c.forcedAlign with
    | none => exact hplaced
    | some forced => exact hplaced.max (Or.inl (hwell.forced forced hforced))
  constructor
  case core =>
    rw [steps.core]
    exact hforced
  case layout =>
    rw [steps.align_eq, steps.dataSize_eq]
    refine Draft.embedAll_moderate steps.shared hwell.packing hhoisted
      (fun core hmem => (h.hoisted core hmem).dataSize_le_size) ?_
    rwa [forceAlign_offset]

end Composite.Construction

namespace TypeTable

variable {table : TypeTable} {target : Target} {id : TypeId} {align : Nat} {placed : Placed}
  {layout : Layout}

lemma PlacedAs.moderate (h : table.PlacedAs target id (.ok placed))
    (haccepted : table.Accepted target id align) : placed.Moderate := by
  induction h using ok_induction generalizing align with
  | @step id placed c part h defined parts steps ih =>
    refine (h.partsRegular haccepted defined parts steps).moderate (haccepted.wellFormed defined)
      fun other p hother hp => ?_
    have hbelow := h.below_of_part defined hother
    obtain ⟨align', haccepted'⟩ := haccepted.reaches hbelow.reaches
    exact ih other hbelow p hp haccepted'

lemma PlacedAs.holds_core (h : table.PlacedAs target id (.ok placed))
    (hfilled : 0 < placed.core.dataSize) : target.holds placed.core.size = true := by
  obtain ⟨c, part, -, -, ⟨steps⟩⟩ := h.construction
  have hclosed := steps.closed
  have hcore := Composite.close_eq_ok hclosed
  rw [hcore] at hfilled ⊢
  unfold Core.close at hclosed
  rw [if_neg (Nat.ne_of_gt hfilled)] at hclosed ⊢
  obtain ⟨size, hsize, -⟩ := bind_eq_ok.mp hclosed
  exact (Site.require_offset_eq_ok.mp hsize).1

/-- Where offsets are words, all bases of a layout in the lower half of the words end at a word. -/
theorem base_end_lt (hwords : target.addressSpace = some UInt64.size)
    (h : table.layout target id = .ok layout) (hsize : layout.size < 2 ^ 63) {base : PlacedBase}
    (hmem : base ∈ layout.bases) : base.offset + base.size < UInt64.size := by
  obtain ⟨align, placed, haccepted, hplaced, rfl⟩ := layout_eq_ok h
  obtain ⟨c, part, defined, parts, ⟨steps⟩⟩ := hplaced.construction
  have hwell := haccepted.wellFormed defined
  have hregular := hplaced.partsRegular haccepted defined parts steps
  obtain ⟨p, hp, hwithin, hcore⟩ : ∃ p, part base.type = .ok p ∧
      base.offset + p.core.dataSize ≤ placed.layout.dataSize ∧ base.size = p.core.size := by
    rcases Layout.mem_bases_iff.mp hmem with howned | hshared
    · obtain ⟨p, hp, hbears⟩ := hregular.owned_bears hwell howned
      have hdata := (hregular.regular hwell).dataSize_le
      exact ⟨p, hp, hbears.within.trans hdata, hbears.size⟩
    · obtain ⟨p, hp, hbears⟩ := hregular.shared_bears hwell hshared
      exact ⟨p, hp, hbears.within, hbears.size⟩
  have hdata := (hplaced.regular haccepted).dataSize_le_size
  have hbelow := hplaced.below_of_mem_bases hmem
  obtain ⟨align', haccepted'⟩ := haccepted.reaches hbelow.reaches
  have hbase := hp ▸ parts base.type hbelow
  have hlent := (hbase.regular haccepted').core
  have hsize' := hlent.size
  rcases Nat.eq_zero_or_pos p.core.dataSize with hempty | hfilled
  · rw [if_pos hempty] at hsize'
    have : UInt64.size = 2 ^ 64 := rfl
    omega
  · rw [if_neg (Nat.ne_of_gt hfilled)] at hsize'
    have hholds := hbase.holds_core hfilled
    rw [Target.holds_iff hwords, hsize'] at hholds
    have hlt := (hbase.moderate haccepted').core.roundUp_lt hlent.pos hfilled hholds
    have hhalf : max (2 ^ 63) p.core.dataSize = 2 ^ 63 := max_eq_left (by omega)
    rw [hhalf] at hlt
    have : UInt64.size = 2 ^ 64 := rfl
    omega

end TypeTable

end ObjectLayout
