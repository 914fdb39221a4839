import ObjectLayout.Proofs.AlignmentAgreement
import ObjectLayout.Proofs.ReportedSpans

/-!
# Absolute alignment

A laid-out type expands into anchors: its dispatch slots, scalars, pointers, storage units, nested
members and the cores of its bases, each with the alignment that it asks for and moved to where the
layout puts it. Without packing clamps an anchor of a core divides the alignment of the core, and a
core that holds anything is placed at a multiple of that, so every anchor stays aligned however deep
it lies. A core without data has no anchors and may lie anywhere.
-/
namespace ObjectLayout

/-- An offset at which something that asks for an alignment lies. -/
structure Anchor where
  offset : Nat
  align : Nat
  deriving DecidableEq

/-- The anchor moved by a number of bytes. -/
def Anchor.shift (bytes : Nat) (anchor : Anchor) : Anchor :=
  { anchor with offset := bytes + anchor.offset }

/-- The anchors of a type, of its core and of a complete object, with the alignments of both. -/
structure Anchorage where
  coreAlign : Nat
  align : Nat
  core : List Anchor
  complete : List Anchor
  deriving DecidableEq, Inhabited

/-- The anchors of a placed field. A marker has none. -/
def Field.anchors (target : Target) (part : TypeId → Anchorage) (field : Field)
    (placed : PlacedField) : List Anchor :=
  match field.bitWidth, field.type with
  | some 0, _ => []
  | some (_ + 1), _ => [⟨placed.offset, field.storageUnit⟩]
  | none, .scalar _ natural => [⟨placed.offset, max natural (field.forcedAlign.getD 1)⟩]
  | none, .pointer => [⟨placed.offset, target.pointerSize⟩]
  | none, .composite id =>
    ⟨placed.offset, (part id).align⟩ :: (part id).complete.map (.shift placed.offset)

/-- The anchors of a placed base: where its core begins, unless it is empty, and those of the
core. -/
def PlacedBase.anchors (part : TypeId → Anchorage) (base : PlacedBase) : List Anchor :=
  (if base.size = 0 then [] else [⟨base.offset, (part base.type).coreAlign⟩])
    ++ (part base.type).core.map (.shift base.offset)

/-- The anchors of a placed type, given those of the types below. -/
def Composite.anchors (target : Target) (part : TypeId → Anchorage) (c : Composite)
    (placed : Placed) : Anchorage :=
  let slots (dispatch : Option Nat) := dispatch.toList.map fun slot => ⟨slot, target.pointerSize⟩
  let core := slots placed.core.dispatch
    ++ placed.layout.ownedBases.flatMap (PlacedBase.anchors part)
    ++ (c.fields.zip placed.layout.fields).flatMap fun entry =>
      entry.1.anchors target part entry.2
  { coreAlign := placed.core.align
    align := placed.layout.align
    core := core
    complete := slots placed.layout.dispatch ++ core
      ++ placed.layout.sharedBases.flatMap (PlacedBase.anchors part) }

namespace TypeTable

/-- The anchors of a type, by recursion over the types below it and their layouts. -/
inductive AnchoredAs (table : TypeTable) (target : Target) : TypeId → Anchorage → Prop
  | intro {id : TypeId} {c : Composite} {placed : Placed} (part : TypeId → Anchorage)
      (defined : table.get? id = some c) (isPlaced : table.PlacedAs target id (.ok placed))
      (laidOut : table.layout target id = .ok placed.layout)
      (covers : placed.layout.Covers target c)
      (parts : ∀ other, table.Below id other → table.AnchoredAs target other (part other)) :
      table.AnchoredAs target id (c.anchors target part placed)

end TypeTable

/-- A place that is aligned as far as it is granted, and ends before the frontier. -/
structure Site.Keeps (site : Site) (align bytes : Nat) (last : Frontier)
    (placed : PlacedField) : Prop where
  power : align.isPowerOfTwo
  aligned : site.granted align ∣ placed.offset
  align_le : site.granted align ≤ last.align
  within : placed.offset + bytes ≤ last.offset

lemma Site.Keeps.mono {target : Target} {site : Site} {align bytes : Nat} {last last' : Frontier}
    {placed : PlacedField} (h : site.Keeps align bytes last placed)
    (hgrows : last.Grows target last') :
    site.Keeps align bytes last' placed :=
  ⟨h.power, h.aligned, h.align_le.trans hgrows.align, h.within.trans hgrows.offset⟩

/-- How a field comes to lie: for its type and its forced alignment, or in whole storage units. -/
def Field.Sits (site : Site) (extent : FieldType → Except Rejection (Nat × Nat)) (last : Frontier)
    (field : Field) (placed : PlacedField) : Prop :=
  match field.bitWidth with
  | none => ∃ size natural, extent field.type = .ok (size, natural) ∧
      site.Keeps (max natural (field.forcedAlign.getD 1)) size last placed
  | some 0 => True
  | some (_ + 1) => site.Keeps field.storageUnit field.storageUnit last placed

namespace FieldGroup

variable {target : Target} {site : Site} {extent : FieldType → Except Rejection (Nat × Nat)}
  {frontier next last : Frontier} {placed : List PlacedField} {groups : List FieldGroup}

lemma sits_mono {field : Field} {one : PlacedField} (h : field.Sits site extent next one)
    (hgrows : next.Grows target last) : field.Sits site extent last one := by
  unfold Field.Sits at h ⊢
  split at h
  · obtain ⟨size, natural, hextent, hkeeps⟩ := h
    exact ⟨size, natural, hextent, hkeeps.mono hgrows⟩
  · trivial
  · exact h.mono hgrows

/-- The units of a run lie at multiples of what is granted to a unit. -/
lemma run_sits {unit : Nat} {members : List Field}
    (hvalid : (FieldGroup.run unit members).Valid target) (hunit : unit.isPowerOfTwo)
    (hsite : ∀ clamp ∈ site.packing, clamp.isPowerOfTwo)
    (h : (FieldGroup.run unit members).place site extent frontier = .ok (next, placed)) :
    List.Forall₂ (Field.Sits site extent next) members placed := by
  obtain ⟨hpos, -, hmembers⟩ := hvalid
  obtain ⟨start, rfl, rfl, rfl⟩ := place_run_eq_ok h
  have hgranted := Site.granted_isPowerOfTwo hsite hunit
  have hdvd := dvd_of_isPowerOfTwo hgranted hunit (site.granted_le unit)
  refine List.forall₂_iff_get.mpr ⟨by rw [List.length_map, length_bits], fun i hi hi' => ?_⟩
  rw [List.length_map] at hi'
  rw [List.get_eq_getElem, List.get_eq_getElem, List.getElem_map]
  obtain ⟨hsame, ⟨width, hwidth⟩, -⟩ := hmembers _ (List.getElem_mem hi)
  rw [Field.Sits, hwidth, hsame]
  refine ⟨hunit, ?_, le_max_right _ _, ?_⟩
  · exact Nat.dvd_add (dvd_roundUp hgranted _) (hdvd.mul_left _)
  · exact placeBit_stop_le hpos _ hmembers (List.getElem_mem hi')

lemma place_sits {group : FieldGroup} (hvalid : group.Valid target)
    (hregular : group.Regular extent) (hsite : ∀ clamp ∈ site.packing, clamp.isPowerOfTwo)
    (h : group.place site extent frontier = .ok (next, placed)) :
    List.Forall₂ (Field.Sits site extent next) group.fields placed := by
  cases group with
  | plain field =>
    obtain ⟨size, natural, hextent, start, rfl, rfl, rfl⟩ := place_plain_eq_ok h
    refine .cons ?_ .nil
    rw [Field.Sits, hvalid.1]
    have hpower := hregular size natural hextent
    exact ⟨size, natural, hextent, hpower, dvd_roundUp (Site.granted_isPowerOfTwo hsite hpower) _,
      le_max_right _ _, le_refl _⟩
  | marker field =>
    obtain ⟨rfl, rfl⟩ := place_marker_eq_ok h
    refine .cons ?_ .nil
    rw [Field.Sits, hvalid.1]
    trivial
  | run unit members => exact run_sits hvalid hregular hsite h

/-- Every field comes to lie as it asks for, before the last frontier. -/
theorem placeAll_sits (hvalid : ∀ group ∈ groups, group.Valid target)
    (hregular : ∀ group ∈ groups, group.Regular extent)
    (hsite : ∀ clamp ∈ site.packing, clamp.isPowerOfTwo)
    (h : placeAll site extent frontier groups = .ok (last, placed)) :
    List.Forall₂ (Field.Sits site extent last) (groups.flatMap fields) placed := by
  induction groups generalizing frontier placed with
  | nil =>
    cases h
    exact .nil
  | cons group groups ih =>
    obtain ⟨next, first, others, hgroup, hrest, rfl⟩ := placeAll_cons_eq_ok h
    obtain ⟨hvalidHead, hvalidTail⟩ := List.forall_mem_cons.mp hvalid
    obtain ⟨hhead, htail⟩ := List.forall_mem_cons.mp hregular
    have hgrows := placeAll_grows hvalidTail (fun _ => htail) hsite hrest
    rw [List.flatMap_cons]
    refine List.rel_append ?_ (ih hvalidTail htail hrest)
    exact (place_sits hvalidHead hhead hsite hgroup).imp fun field one hsits =>
      sits_mono hsits hgrows

end FieldGroup

/-- The anchor lies at a multiple of its alignment, which divides the one around it. -/
def Anchor.Aligned (outer : Nat) (anchor : Anchor) : Prop :=
  anchor.align ∣ anchor.offset ∧ anchor.align ∣ outer

namespace Anchor.Aligned

variable {inner outer bytes : Nat} {anchor : Anchor}

lemma mono (h : anchor.Aligned inner) (hdvd : inner ∣ outer) : anchor.Aligned outer :=
  ⟨h.1, h.2.trans hdvd⟩

/-- What is moved by a multiple of the alignment around it stays aligned. -/
lemma shift (h : anchor.Aligned inner) (hbytes : inner ∣ bytes) :
    (anchor.shift bytes).Aligned inner :=
  ⟨Nat.dvd_add (h.2.trans hbytes) h.1, h.2⟩

end Anchor.Aligned

/-- The anchors of a placed type are aligned, and there are none where there is no data. -/
structure Placed.Anchored (target : Target) (placed : Placed) (anchorage : Anchorage) : Prop where
  coreAlign : anchorage.coreAlign = placed.core.align
  align : anchorage.align = placed.layout.align
  slot : ∀ slot ∈ placed.core.dispatch,
    Anchor.Aligned placed.core.align ⟨slot, target.pointerSize⟩
  empty : placed.core.dataSize = 0 → anchorage.core = []
  core : ∀ anchor ∈ anchorage.core, anchor.Aligned placed.core.align
  complete : ∀ anchor ∈ anchorage.complete, anchor.Aligned placed.layout.align

lemma Frontier.Grows.align_dvd {target : Target} {frontier next : Frontier}
    (h : frontier.Grows target next) (hpointer : target.pointerSize.isPowerOfTwo)
    (hpower : frontier.align.isPowerOfTwo) : frontier.align ∣ next.align :=
  dvd_of_isPowerOfTwo hpower (h.power hpointer hpower) h.align

namespace Field

variable {target : Target} {site : Site} {part : TypeId → Except Rejection Placed}
  {anchorage : TypeId → Anchorage} {last : Frontier} {field : Field} {placed : PlacedField}

/-- Where every alignment is granted, the anchors of a field are aligned. -/
lemma anchors_aligned (h : field.Sits site (Composite.extent target part) last placed)
    (hunclamped : ∀ align, site.granted align = align) (hlast : last.align.isPowerOfTwo)
    (hpointer : target.pointerSize.isPowerOfTwo)
    (hparts : ∀ id p, field.type = .composite id → part id = .ok p →
      p.Regular target ∧ p.Anchored target (anchorage id)) :
    ∀ anchor ∈ field.anchors target anchorage placed, anchor.Aligned last.align := by
  -- A power of two that does not go beyond what the place is kept for.
  have hkeeps {align bytes : Nat} (hkept : site.Keeps align bytes last placed) {inner : Nat}
      (hpower : inner.isPowerOfTwo) (hle : inner ≤ align) :
      Anchor.Aligned last.align ⟨placed.offset, inner⟩ := by
    have hdvd := dvd_of_isPowerOfTwo hpower hkept.power hle
    refine ⟨hdvd.trans (hunclamped align ▸ hkept.aligned), hdvd.trans ?_⟩
    exact dvd_of_isPowerOfTwo hkept.power hlast (hunclamped align ▸ hkept.align_le)
  unfold Sits at h
  unfold anchors
  cases hbits : field.bitWidth with
  | some width =>
    rw [hbits] at h
    cases width with
    | zero => simp
    | succ width =>
      simp only [List.mem_singleton, forall_eq]
      exact hkeeps h h.power (le_refl _)
  | none =>
    rw [hbits] at h
    obtain ⟨size, natural, hextent, hkept⟩ := h
    cases htype : field.type with
    | scalar declared align =>
      rw [htype] at hextent
      cases hextent
      simp only [List.mem_singleton, forall_eq]
      exact hkeeps hkept hkept.power (le_refl _)
    | pointer =>
      rw [htype] at hextent
      cases hextent
      simp only [List.mem_singleton, forall_eq]
      exact hkeeps hkept hpointer (le_max_left _ _)
    | composite id =>
      rw [htype] at hextent
      obtain ⟨p, hp, hextent⟩ := bind_eq_ok.mp hextent
      cases hextent
      obtain ⟨hregular, hanchored⟩ := hparts id p htype hp
      have hmember : Anchor.Aligned last.align ⟨placed.offset, p.layout.align⟩ :=
        hkeeps hkept (hregular.align hpointer) (le_max_left _ _)
      dsimp only
      rw [hanchored.align]
      refine List.forall_mem_cons.mpr ⟨hmember, List.forall_mem_map.mpr fun anchor hmem => ?_⟩
      exact ((hanchored.complete anchor hmem).shift hmember.1).mono hmember.2

/-- Only a marker lies before a frontier that is at the beginning. -/
lemma anchors_eq_nil (h : field.Sits site (Composite.extent target part) last placed)
    (hfield : field.WellFormed target) (hpointer : 0 < target.pointerSize)
    (hparts : ∀ id p, field.type = .composite id → part id = .ok p → p.Regular target)
    (hlast : last.offset = 0) : field.anchors target anchorage placed = [] := by
  unfold Sits at h
  unfold anchors
  cases hbits : field.bitWidth with
  | some width =>
    rw [hbits] at h
    cases width with
    | zero => rfl
    | succ width =>
      have hunit := (hfield.storageUnit (by rw [hbits]; rfl)).2
      have hwithin := h.within
      omega
  | none =>
    rw [hbits] at h
    obtain ⟨size, natural, hextent, hkept⟩ := h
    have hwithin := hkept.within
    have hsize := Composite.extent_pos hfield hpointer (fun id htype p => hparts id p htype) hextent
    omega

end Field

namespace Draft

variable {target : Target} {site : Site} {draft last : Draft} {sharing : Sharing}
  {bytes : TypeId × Core → Nat} {cores : List (TypeId × Core)}

/-- Slots stay aligned where bases are embedded. -/
lemma embedAll_slots (h : draft.embedAll site sharing bytes cores = .ok last)
    (hsite : ∀ clamp ∈ site.packing, clamp.isPowerOfTwo)
    (hunclamped : ∀ align, site.granted align = align)
    (hpointer : target.pointerSize.isPowerOfTwo) (hcores : ∀ core ∈ cores, core.2.Regular target)
    (hslots : ∀ core ∈ cores, ∀ slot ∈ core.2.dispatch,
      Anchor.Aligned core.2.align ⟨slot, target.pointerSize⟩)
    (hpower : draft.frontier.align.isPowerOfTwo)
    (hdraft : ∀ slot ∈ draft.dispatch,
      Anchor.Aligned draft.frontier.align ⟨slot, target.pointerSize⟩) :
    ∀ slot ∈ last.dispatch, Anchor.Aligned last.frontier.align ⟨slot, target.pointerSize⟩ := by
  refine (embedAll_invariant (P := fun draft => draft.frontier.align.isPowerOfTwo ∧
    ∀ slot ∈ draft.dispatch, Anchor.Aligned draft.frontier.align ⟨slot, target.pointerSize⟩) h
    (fun core hin now next start hembeds hnow => ?_) ⟨hpower, hdraft⟩).2
  obtain ⟨hpower, hnow⟩ := hnow
  have hcore := hcores core hin
  have hgrows := hembeds.grows hsite hcore.align
  refine ⟨hgrows.power hpointer hpower, fun slot hmem => ?_⟩
  rw [hembeds.dispatch, Option.mem_def, Option.or_eq_some_iff, Option.map_eq_some_iff] at hmem
  rcases hmem with hold | ⟨-, inner, hinner, rfl⟩
  · exact (hnow slot hold).mono (hgrows.align_dvd hpointer hpower)
  · have hinner := Core.dispatch_of_brings hinner
    have hfilled := hcore.dataSize_pos (Nat.pos_of_isPowerOfTwo hpointer)
      (Option.isSome_of_mem hinner)
    have hstart := (hembeds.filled hfilled).1
    rw [hunclamped] at hstart
    have halign := hcore.align hpointer
    have haligned := (hslots core hin inner hinner).shift (hstart ▸ dvd_roundUp halign _)
    refine haligned.mono (dvd_of_isPowerOfTwo halign (hgrows.power hpointer hpower) ?_)
    rw [hembeds.align, hunclamped]
    exact le_max_right _ _

/-- The anchors of a base are aligned, and an empty base has none. -/
lemma Bears.anchors_aligned {align dataSize : Nat} {base : PlacedBase} {p : Placed}
    {anchorage : TypeId → Anchorage} (h : Bears site align dataSize (base.type, p.core) base)
    (hunclamped : ∀ align, site.granted align = align)
    (hpointer : target.pointerSize.isPowerOfTwo) (halign : align.isPowerOfTwo)
    (hregular : p.core.Regular target) (hanchored : p.Anchored target (anchorage base.type)) :
    (∀ anchor ∈ base.anchors anchorage, anchor.Aligned align) ∧
      (dataSize = 0 → base.anchors anchorage = []) := by
  have hsize : base.size = p.core.size := h.size
  have hempty : p.core.dataSize = 0 → base.anchors anchorage = [] := by
    intro hnone
    rw [hregular.size, if_pos hnone] at hsize
    rw [PlacedBase.anchors, if_pos hsize, hanchored.empty hnone]
    rfl
  have hwithin : base.offset + p.core.dataSize ≤ dataSize := h.within
  refine ⟨?_, fun hnone => hempty (by omega)⟩
  rcases Nat.eq_zero_or_pos p.core.dataSize with hnone | hfilled
  · rw [hempty hnone]
    simp
  · have hcore : Anchor.Aligned align ⟨base.offset, p.core.align⟩ := by
      have hcore := hregular.align hpointer
      have haligned := h.aligned hfilled (by rwa [hunclamped])
      rw [hunclamped] at haligned
      exact ⟨haligned, dvd_of_isPowerOfTwo hcore halign (hunclamped p.core.align ▸ h.align_le)⟩
    intro anchor hmem
    rcases List.mem_append.mp hmem with hmem | hmem
    · rw [hanchored.coreAlign] at hmem
      split at hmem
      · cases hmem
      · rw [List.mem_singleton.mp hmem]
        exact hcore
    · obtain ⟨inner, hinner, rfl⟩ := List.mem_map.mp hmem
      exact ((hanchored.core inner hinner).shift hcore.1).mono hcore.2

end Draft

namespace Composite

variable {target : Target} {isPod : TypeId → Bool} {part : TypeId → Except Rejection Placed}
  {c : Composite} {placed : Placed} {anchorage : TypeId → Anchorage}

lemma openSlot_aligned {owned : List (TypeId × Core)} {opened : Draft}
    (hunclamped : ∀ align, (c.site target).granted align = align)
    (hpointer : target.pointerSize.isPowerOfTwo) (h : c.openSlot target owned = .ok opened) :
    ∀ slot ∈ opened.dispatch, Anchor.Aligned opened.frontier.align ⟨slot, target.pointerSize⟩ := by
  rw [openSlot_eq_ok h, hunclamped]
  split
  · rintro slot ⟨⟩
    refine ⟨dvd_roundUp hpointer _, ?_⟩
    dsimp only
    rw [Nat.max_eq_right (Nat.pos_of_isPowerOfTwo hpointer)]
  · simp

namespace Construction

variable {steps : Construction target isPod part c placed}

section

variable (h : steps.PartsRegular) (hwell : c.WellFormed target)
  (hpointer : target.pointerSize.isPowerOfTwo)
  (hunclamped : ∀ align, (c.site target).granted align = align)
  (hparts : ∀ id p, id ∈ c.references ∨ id ∈ placed.shared → part id = .ok p →
    p.Anchored target (anchorage id))
include h hwell hpointer hunclamped hparts

/-- The slot of the core, and that of the complete object, are aligned. -/
lemma PartsRegular.slots_aligned :
    (∀ slot ∈ placed.core.dispatch,
      Anchor.Aligned placed.core.align ⟨slot, target.pointerSize⟩) ∧
      ∀ slot ∈ placed.layout.dispatch,
        Anchor.Aligned placed.layout.align ⟨slot, target.pointerSize⟩ := by
  have hordered := h.ordered hwell
  have hopened := (openSlot_regular hwell steps.slot).2.1 hpointer
  have hbased := hordered.based.power hpointer hopened
  have hfields := hordered.fields.power hpointer hbased
  have howned : ∀ core ∈ steps.owned, ∀ slot ∈ core.2.dispatch,
      Anchor.Aligned core.2.align ⟨slot, target.pointerSize⟩ :=
    steps.forall_owned fun base hmem p hp =>
      (hparts base.type p (Or.inl (mem_references_of_ownedBase hmem)) hp).slot
  have hhoisted : ∀ core ∈ steps.hoisted, ∀ slot ∈ core.2.dispatch,
      Anchor.Aligned core.2.align ⟨slot, target.pointerSize⟩ :=
    steps.forall_hoisted fun id hmem p hp => (hparts id p (Or.inr hmem) hp).slot
  have hslots := Draft.embedAll_slots steps.bases hwell.packing hunclamped hpointer h.owned howned
    hopened (openSlot_aligned hunclamped hpointer steps.slot)
  have hcore : ∀ slot ∈ steps.based.dispatch, Anchor.Aligned (c.forceAlign steps.frontier).align
      ⟨slot, target.pointerSize⟩ := fun slot hmem => (hslots slot hmem).mono
    ((hordered.fields.align_dvd hpointer hbased).trans (hordered.forced.align_dvd hpointer hfields))
  refine ⟨?_, ?_⟩
  · rw [steps.core]
    exact hcore
  · rw [steps.dispatch_eq, steps.align_eq]
    exact Draft.embedAll_slots steps.shared hwell.packing hunclamped hpointer h.hoisted
      hhoisted (hordered.forced.power hpointer hfields) hcore

/-- The anchors of the fields are aligned, and there are none where there is no data. -/
lemma PartsRegular.fields_aligned :
    ∀ entry ∈ c.fields.zip placed.layout.fields,
      (∀ anchor ∈ entry.1.anchors target anchorage entry.2,
        anchor.Aligned placed.core.align) ∧
      (placed.core.dataSize = 0 → entry.1.anchors target anchorage entry.2 = []) := by
  have hordered := h.ordered hwell
  have hbased := hordered.based.power hpointer ((openSlot_regular hwell steps.slot).2.1 hpointer)
  have hfields := hordered.fields.power hpointer hbased
  have hsits := FieldGroup.placeAll_sits (FieldGroup.ofFields_valid hwell.fields)
    (h.groups hwell hpointer) hwell.packing steps.fields
  rw [FieldGroup.flatMap_fields_ofFields] at hsits
  rintro ⟨field, one⟩ hentry
  have hfield := (List.of_mem_zip hentry).1
  have hsit := (List.forall₂_iff_zip.mp hsits).2 hentry
  have hmember : ∀ id p, field.type = .composite id → part id = .ok p →
      p.Regular target ∧ p.Anchored target (anchorage id) := fun id p htype hp =>
    have href := Or.inl (mem_references_of_field hfield htype)
    ⟨h id p href hp, hparts id p href hp⟩
  rw [steps.core]
  refine ⟨fun anchor hmem => ?_, fun hempty => ?_⟩
  · exact (Field.anchors_aligned hsit hunclamped hfields hpointer hmember anchor hmem).mono
      (hordered.forced.align_dvd hpointer hfields)
  · exact Field.anchors_eq_nil hsit (hwell.fields field hfield) (Nat.pos_of_isPowerOfTwo hpointer)
      (fun id p htype hp => (hmember id p htype hp).1) hempty

/-- Where nothing is clamped, the anchors of a type are aligned if those of the types below are. -/
theorem PartsRegular.anchored : placed.Anchored target (c.anchors target anchorage placed) := by
  have hplaced := h.regular hwell
  have hfields := h.fields_aligned hwell hpointer hunclamped hparts
  obtain ⟨hcoreSlots, hslots⟩ := h.slots_aligned hwell hpointer hunclamped hparts
  have howned : ∀ base ∈ placed.layout.ownedBases,
      (∀ anchor ∈ base.anchors anchorage, anchor.Aligned placed.core.align) ∧
        (placed.core.dataSize = 0 → base.anchors anchorage = []) := by
    intro base hmem
    obtain ⟨p, hp, hbears⟩ := h.owned_bears hwell hmem
    have href := steps.mem_references_of_ownedBases hmem
    exact hbears.anchors_aligned hunclamped hpointer (hplaced.core.align hpointer)
      (h base.type p (Or.inl href) hp).core (hparts base.type p (Or.inl href) hp)
  have hshared : ∀ base ∈ placed.layout.sharedBases,
      ∀ anchor ∈ base.anchors anchorage, anchor.Aligned placed.layout.align := by
    intro base hmem
    obtain ⟨p, hp, hbears⟩ := h.shared_bears hwell hmem
    have hin := steps.mem_shared_of_sharedBases hmem
    exact (hbears.anchors_aligned hunclamped hpointer (hplaced.align hpointer)
      (h base.type p (Or.inr hin) hp).core (hparts base.type p (Or.inr hin) hp)).1
  have hcore : ∀ anchor ∈ (c.anchors target anchorage placed).core,
      anchor.Aligned placed.core.align := by
    intro anchor hmem
    simp only [anchors, List.mem_append, List.mem_map, Option.mem_toList, List.mem_flatMap,
      or_assoc] at hmem
    rcases hmem with ⟨slot, hslot, rfl⟩ | ⟨base, hbase, hmem⟩ | ⟨entry, hentry, hmem⟩
    · exact hcoreSlots slot hslot
    · exact (howned base hbase).1 anchor hmem
    · exact (hfields entry hentry).1 anchor hmem
  refine ⟨rfl, rfl, hcoreSlots, fun hempty => ?_, hcore, fun anchor hmem => ?_⟩
  · have hnone : placed.core.dispatch = none := by
      refine Option.not_isSome_iff_eq_none.mp fun hslot => ?_
      exact (hplaced.core.dataSize_pos (Nat.pos_of_isPowerOfTwo hpointer) hslot).ne' hempty
    simp only [anchors, hnone, Option.toList_none, List.map_nil, List.nil_append,
      List.append_eq_nil_iff, List.flatMap_eq_nil_iff]
    exact ⟨fun base hbase => (howned base hbase).2 hempty,
      fun entry hentry => (hfields entry hentry).2 hempty⟩
  · have hsplit : anchor ∈ placed.layout.dispatch.toList.map
          (fun slot => (⟨slot, target.pointerSize⟩ : Anchor)) ∨
        anchor ∈ (c.anchors target anchorage placed).core ∨
        anchor ∈ placed.layout.sharedBases.flatMap (PlacedBase.anchors anchorage) := by
      rwa [← List.mem_append, ← List.mem_append, ← List.append_assoc]
    rcases hsplit with hmem | hmem | hmem
    · obtain ⟨slot, hslot, rfl⟩ := List.mem_map.mp hmem
      exact hslots slot (Option.mem_toList.mp hslot)
    · exact (hcore anchor hmem).mono
        (dvd_of_isPowerOfTwo (hplaced.core.align hpointer) (hplaced.align hpointer)
          hplaced.align_le)
    · obtain ⟨base, hbase, hmem⟩ := List.mem_flatMap.mp hmem
      exact hshared base hbase anchor hmem

end

end Construction

end Composite

namespace TypeTable

variable {table : TypeTable} {target : Target} {id : TypeId} {align : Nat} {placed : Placed}
  {anchorage : Anchorage}

/-- A type that is laid out has anchors. -/
theorem exists_anchoredAs (haccepted : table.Accepted target id align)
    (h : table.PlacedAs target id (.ok placed)) :
    ∃ anchorage, table.AnchoredAs target id anchorage := by
  induction h using PlacedAs.ok_induction generalizing align with
  | @step id placed c part h defined parts steps ih =>
    have hbelow : ∀ other, table.Below id other →
        ∃ anchorage, table.AnchoredAs target other anchorage := by
      intro other hother
      obtain ⟨p, hp⟩ := h.reaches haccepted hother.reaches
      obtain ⟨align', haccepted'⟩ := haccepted.reaches hother.reaches
      exact ih other hother p ((parts other hother).unique hp) haccepted'
    choose! anchorage hanchored using hbelow
    exact ⟨_, .intro anchorage defined h (layout_of_placedAs haccepted h)
      (steps.covers (haccepted.wellFormed defined)) hanchored⟩

/-- Where no type that is reached has a packing clamp, all anchors are aligned. -/
theorem AnchoredAs.anchored (h : table.AnchoredAs target id anchorage)
    (hplaced : table.PlacedAs target id (.ok placed)) (haccepted : table.Accepted target id align)
    (hpointer : target.pointerSize.isPowerOfTwo) (hunpacked : table.Unpacked id) :
    placed.Anchored target anchorage := by
  induction h generalizing placed align with
  | @intro id c placed' anchorage defined isPlaced laidOut covers below ih =>
    obtain rfl : placed = placed' := Except.ok.inj (hplaced.unique isPlaced)
    obtain ⟨c', part, defined', parts, ⟨steps⟩⟩ := hplaced.construction
    obtain rfl : c = c' := Option.some.inj (defined.symm.trans defined')
    have hwell := haccepted.wellFormed defined
    have hregular := hplaced.partsRegular haccepted defined parts steps
    refine hregular.anchored hwell hpointer (hunpacked.granted defined) fun other p hother hp => ?_
    have hbelow := hplaced.below_of_part defined hother
    obtain ⟨align', haccepted'⟩ := haccepted.reaches hbelow.reaches
    exact ih other hbelow (hp ▸ parts other hbelow) haccepted' (hunpacked.reaches hbelow.reaches)

/-- A shelf owns an entry and has another one as a member; both have an empty base with an alignment
and share a base with a slot. -/
def nestedShelf : TypeTable :=
  { entries := #[
      ⟨"Empty", some { name := "Empty", forcedAlign := some 4 }⟩,
      ⟨"Named", some
        { name := "Named", introducesDispatch := true
          fields := [{ name := "kind", type := .int, bitWidth := some 3 }] }⟩,
      ⟨"Entry", some
        { name := "Entry", bases := [{ type := ⟨0⟩ }, { type := ⟨1⟩, sharing := .shared }]
          fields := [{ name := "tag", type := .short, bitWidth := some 9 },
            { name := "", type := .short, bitWidth := some 0 },
            { name := "mark", type := .char }] }⟩,
      ⟨"Shelf", some
        { name := "Shelf", bases := [{ type := ⟨2⟩ }]
          fields := [{ name := "spare", type := .char },
            { name := "inner", type := .composite ⟨2⟩ }, { name := "next", type := .pointer },
            { name := "wide", type := .double, forcedAlign := some 32 }] }⟩] }

end TypeTable

end ObjectLayout
