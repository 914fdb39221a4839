import ObjectLayout.Proofs.InheritedSlots
import ObjectLayout.Proofs.LooseClamps
import ObjectLayout.Proofs.MarkedRuns

/-!
# Bare types

A bare type has bases and fields only. Nothing is clamped in it, so a lead of one frontier over
another by whole multiples of the alignments outlasts all rounding, and two bare types with the same
fields keep the lead that their bases leave. A type that owns its base begins with the core of it; a
type that shares it has it behind everything else.
-/
namespace ObjectLayout

lemma roundUp_add {align base : Nat} (h : align.isPowerOfTwo) (hdvd : align ∣ base) (value : Nat) :
    roundUp (base + value) align = base + roundUp value align := by
  rw [roundUp_eq_nextMultiple h, roundUp_eq_nextMultiple h,
    nextMultiple_add (Nat.pos_of_isPowerOfTwo h) hdvd]

/-- What is behind by a multiple of the alignment stays behind by as much when it is rounded. -/
lemma roundUp_add_le {value ahead lead align coarser : Nat} (halign : align.isPowerOfTwo)
    (hcoarser : coarser.isPowerOfTwo) (hle : align ≤ coarser) (hdvd : align ∣ lead)
    (h : value + lead ≤ ahead) : roundUp value align + lead ≤ roundUp ahead coarser := by
  rw [Nat.add_comm, ← roundUp_add halign hdvd, Nat.add_comm lead]
  exact roundUp_le_roundUp h halign hcoarser hle

/-- What is put behind costs its size, rounded to the coarsest alignment, out of the lead. -/
lemma roundUp_behind_le {value ahead lead more inner align coarser unit : Nat}
    (hinner : inner.isPowerOfTwo) (halign : align.isPowerOfTwo) (hcoarser : coarser.isPowerOfTwo)
    (hunit : unit.isPowerOfTwo) (hle : inner ≤ align) (hle' : align ≤ coarser)
    (hbound : coarser ≤ unit) (hdvd : unit ∣ lead) (h : value + lead ≤ ahead) :
    roundUp (roundUp value inner + more) align + lead ≤
      roundUp ahead coarser + roundUp more unit := by
  have hwithin := hle'.trans hbound
  have hahead := roundUp_add_le halign hcoarser hle'
    ((dvd_of_isPowerOfTwo halign hunit hwithin).trans hdvd) h
  have hbehind : roundUp (roundUp value inner + more) align ≤
      roundUp value align + roundUp more unit := by
    calc roundUp (roundUp value inner + more) align
      _ ≤ roundUp (roundUp value align + more) align :=
          roundUp_mono halign (Nat.add_le_add_right
            (roundUp_le_roundUp (le_refl _) hinner halign hle) more)
      _ = roundUp value align + roundUp more align := roundUp_add halign (dvd_roundUp halign _) _
      _ ≤ roundUp value align + roundUp more unit :=
          Nat.add_le_add_left (roundUp_le_roundUp (le_refl _) halign hunit hwithin) _
  omega

/-- One frontier is behind another by a lead, and is aligned no more coarsely. -/
structure Frontier.Trails (lead : Nat) (frontier frontier' : Frontier) : Prop where
  offset : frontier.offset + lead ≤ frontier'.offset
  align : frontier.align ≤ frontier'.align

/-- Where a core ends. -/
def Core.frontier (core : Core) : Frontier := ⟨core.dataSize, core.align⟩

/-- A lead by whole multiples of the alignment outlasts rounding. -/
lemma Frontier.Trails.core_size {target : Target} {core core' : Core} {lead : Nat}
    (h : Trails lead core.frontier core'.frontier) (hpointer : target.pointerSize.isPowerOfTwo)
    (hcore : core.Regular target) (hcore' : core'.Regular target) (hdvd : core.align ∣ lead) :
    core.size + lead ≤ core'.size := by
  have hdata : core.dataSize + lead ≤ core'.dataSize := h.offset
  rcases Nat.eq_zero_or_pos core.dataSize with hempty | hfilled
  · have hle := hcore'.dataSize_le_size
    rw [hcore.size, if_pos hempty]
    omega
  · have hfilled' : core'.dataSize ≠ 0 := by omega
    rw [hcore.size, hcore'.size, if_neg hfilled.ne', if_neg hfilled']
    exact roundUp_add_le (hcore.align hpointer) (hcore'.align hpointer) h.align hdvd hdata

namespace FieldGroup

variable {site site' : Site} {extent : FieldType → Except Rejection (Nat × Nat)}
  {frontier frontier' next next' last last' : Frontier} {placed placed' : List PlacedField}
  {lead : Nat}

/-- The lead is a multiple of the alignment that placing the group rounds to. -/
def Divides (extent : FieldType → Except Rejection (Nat × Nat)) (lead : Nat) : FieldGroup → Prop
  | .plain field => ∀ size natural, extent field.type = .ok (size, natural) →
      max natural (field.forcedAlign.getD 1) ∣ lead
  | .marker field => field.storageUnit ∣ lead
  | .run unit _ => unit ∣ lead

/-- A group keeps the lead of one frontier over another. -/
lemma place_trails {group : FieldGroup} (hregular : group.Regular extent)
    (hdvd : group.Divides extent lead) (hsite : site.packing = none)
    (hsite' : site'.packing = none)
    (h : group.place site extent frontier = .ok (next, placed))
    (h' : group.place site' extent frontier' = .ok (next', placed'))
    (htrails : frontier.Trails lead frontier') : next.Trails lead next' := by
  cases group with
  | plain field =>
    obtain ⟨size, natural, hextent, start, hstart, rfl, -⟩ := place_plain_eq_ok h
    obtain ⟨size', natural', hextent', start', hstart', rfl, -⟩ := place_plain_eq_ok h'
    obtain ⟨rfl, rfl⟩ := Prod.mk.inj (Except.ok.inj (hextent.symm.trans hextent'))
    rw [Site.granted_open hsite] at hstart ⊢
    rw [Site.granted_open hsite'] at hstart' ⊢
    have hpower := hregular size natural hextent
    have hround := roundUp_add_le hpower hpower (le_refl _) (hdvd size natural hextent)
      htrails.offset
    refine ⟨?_, max_le_max_right _ htrails.align⟩
    dsimp only
    omega
  | marker field =>
    obtain ⟨rfl, -⟩ := place_marker_eq_ok h
    obtain ⟨rfl, -⟩ := place_marker_eq_ok h'
    rw [Site.granted_open hsite, Site.granted_open hsite']
    exact ⟨roundUp_add_le hregular hregular (le_refl _) hdvd htrails.offset, htrails.align⟩
  | run unit fields =>
    obtain ⟨start, hstart, rfl, -⟩ := place_run_eq_ok h
    obtain ⟨start', hstart', rfl, -⟩ := place_run_eq_ok h'
    rw [Site.granted_open hsite] at hstart ⊢
    rw [Site.granted_open hsite'] at hstart' ⊢
    have hround := roundUp_add_le hregular hregular (le_refl _) hdvd htrails.offset
    refine ⟨?_, max_le_max_right _ htrails.align⟩
    dsimp only
    omega

/-- Groups keep the lead of one frontier over another. -/
lemma placeAll_trails {groups : List FieldGroup}
    (hregular : ∀ group ∈ groups, group.Regular extent)
    (hdvd : ∀ group ∈ groups, group.Divides extent lead) (hsite : site.packing = none)
    (hsite' : site'.packing = none)
    (h : placeAll site extent frontier groups = .ok (last, placed))
    (h' : placeAll site' extent frontier' groups = .ok (last', placed'))
    (htrails : frontier.Trails lead frontier') : last.Trails lead last' := by
  induction groups generalizing frontier frontier' placed placed' with
  | nil =>
    cases h
    cases h'
    exact htrails
  | cons group groups ih =>
    obtain ⟨next, _, others, hgroup, hrest, -⟩ := placeAll_cons_eq_ok h
    obtain ⟨next', _, others', hgroup', hrest', -⟩ := placeAll_cons_eq_ok h'
    obtain ⟨hregularHead, hregularTail⟩ := List.forall_mem_cons.mp hregular
    obtain ⟨hhead, htail⟩ := List.forall_mem_cons.mp hdvd
    exact ih hregularTail htail hrest hrest'
      (place_trails hregularHead hhead hsite hsite' hgroup hgroup' htrails)

end FieldGroup

namespace Draft.Embeds

variable {site site' : Site} {type type' : TypeId} {sharing sharing' : Sharing}
  {core core' : Core} {bytes bytes' start start' lead more : Nat} {draft draft' next next' : Draft}

/-- A base that takes less room adds to the lead. -/
lemma trails (h : Embeds site type sharing core bytes draft next start)
    (h' : Embeds site' type' sharing' core' bytes' draft' next' start')
    (hsite : site.packing = none) (hsite' : site'.packing = none)
    (halign : core.align.isPowerOfTwo) (halign' : core'.align.isPowerOfTwo)
    (hle : core.align ≤ core'.align) (hdvd : core.align ∣ lead) (hfilled : 0 < core'.dataSize)
    (hbytes : bytes + more ≤ bytes') (htrails : draft.frontier.Trails lead draft'.frontier) :
    next.frontier.Trails (lead + more) next'.frontier := by
  refine ⟨?_, ?_⟩
  · have hround := roundUp_add_le halign halign' hle hdvd htrails.offset
    obtain ⟨hstart', hoffset'⟩ := h'.filled hfilled
    rw [Site.granted_open hsite'] at hstart'
    rcases Nat.eq_zero_or_pos core.dataSize with hempty | hfilled
    · obtain ⟨hstart, hoffset⟩ := h.empty hempty
      have hge := le_roundUp draft.frontier.offset core.align
      omega
    · obtain ⟨hstart, hoffset⟩ := h.filled hfilled
      rw [Site.granted_open hsite] at hstart
      omega
  · rw [h.align, h'.align, Site.granted_open hsite, Site.granted_open hsite']
    exact max_le_max htrails.align hle

end Draft.Embeds

/-- The composite types of the fields. -/
def fieldTypes (fields : List Field) : List TypeId :=
  fields.filterMap fun field => field.type.composite?

lemma fieldTypes_append (fields more : List Field) :
    fieldTypes (fields ++ more) = fieldTypes fields ++ fieldTypes more :=
  List.filterMap_append

namespace Composite

/-- The type has just these bases and fields, neither dispatch nor directives. -/
structure Bare (c : Composite) (bases : List (TypeId × Sharing)) (fields : List Field) :
    Prop where
  bases : c.bases.map (fun base => (base.type, base.sharing)) = bases
  fields : c.fields = fields
  dispatch : c.introducesDispatch = false
  forcedAlign : c.forcedAlign = none
  packing : c.packing = none

variable {target : Target} {isPod isPod' : TypeId → Bool}
  {part part' : TypeId → Except Rejection Placed} {c c' : Composite} {placed placed' : Placed}
  {bases bases' : List (TypeId × Sharing)} {fields : List Field} {unit lead : Nat}

namespace Bare

lemma granted (h : c.Bare bases fields) (align : Nat) : (c.site target).granted align = align :=
  Site.granted_open h.packing align

lemma opened (h : c.Bare bases fields) (steps : Construction target isPod part c placed) :
    steps.opened = {} := by
  rw [openSlot_eq_ok steps.slot, opensSlot, h.dispatch]
  rfl

lemma forceAlign (h : c.Bare bases fields) (frontier : Frontier) :
    c.forceAlign frontier = frontier := by
  rw [Composite.forceAlign, h.forcedAlign]

lemma core_frontier (h : c.Bare bases fields)
    (steps : Construction target isPod part c placed) :
    placed.core.frontier = steps.frontier := by
  rw [Core.frontier, steps.core, h.forceAlign]

/-- The groups of the fields divide a lead over alignments up to a unit. -/
lemma divides (h : c.Bare bases fields) (steps : Construction target isPod part c placed)
    (hwell : c.WellFormed target)
    (hregular : ∀ group ∈ FieldGroup.ofFields c.fields, group.Regular (extent target part))
    (hunit : unit.isPowerOfTwo) (halign : placed.core.align ≤ unit)
    (hmarkers : ∀ field ∈ fields, field.isMarker = true → field.storageUnit ≤ unit)
    (hlead : unit ∣ lead) :
    ∀ group ∈ FieldGroup.ofFields c.fields, group.Divides (extent target part) lead := by
  have hcore : placed.core.align = steps.frontier.align :=
    congrArg Frontier.align (h.core_frontier steps)
  rw [hcore] at halign
  have haligns := ((FieldGroup.placeAll_align_le_iff steps.fields).mp halign).2
  have hdvd : ∀ {align : Nat}, align.isPowerOfTwo → align ≤ unit → align ∣ lead :=
    fun hpower hle => (dvd_of_isPowerOfTwo hpower hunit hle).trans hlead
  intro group hgroup
  have hgroupRegular := hregular group hgroup
  have hgroupAligns := haligns group hgroup
  simp only [h.granted] at hgroupAligns
  cases group with
  | plain field =>
    intro size natural hextent
    refine hdvd (hgroupRegular size natural hextent) (hgroupAligns _ ?_)
    simp [FieldGroup.aligns, hextent]
  | marker field =>
    have hmem : field ∈ fields := by
      rw [← h.fields, ← FieldGroup.flatMap_fields_ofFields c.fields]
      exact List.mem_flatMap.mpr ⟨_, hgroup, List.mem_singleton_self field⟩
    have hmarker : field.isMarker = true := by
      rw [Field.isMarker, (FieldGroup.ofFields_valid hwell.fields _ hgroup).1]
      rfl
    exact hdvd hgroupRegular (hmarkers field hmem hmarker)
  | run size members =>
    exact hdvd hgroupRegular (hgroupAligns size (List.mem_singleton_self size))

/-- The same fields keep the lead that the bases leave. -/
lemma core_trails (h : c.Bare bases fields) (h' : c'.Bare bases' fields)
    (steps : Construction target isPod part c placed)
    (steps' : Construction target isPod' part' c' placed')
    (hwell' : c'.WellFormed target) (hpointer : target.pointerSize.isPowerOfTwo)
    (hregular' : steps'.PartsRegular)
    (hextent : ∀ field ∈ fields, extent target part field.type = extent target part' field.type)
    (hunit : unit.isPowerOfTwo) (halign : placed'.core.align ≤ unit)
    (hmarkers : ∀ field ∈ fields, field.isMarker = true → field.storageUnit ≤ unit)
    (hlead : unit ∣ lead) (hbased : steps.based.frontier.Trails lead steps'.based.frontier) :
    placed.core.frontier.Trails lead placed'.core.frontier := by
  have hgroups := hregular'.groups hwell' hpointer
  have hsame : ∀ field, .plain field ∈ FieldGroup.ofFields c'.fields →
      extent target part field.type = extent target part' field.type := by
    rw [h'.fields]
    exact fun field hmem => hextent field (FieldGroup.plain_mem_ofFields.mp hmem).1
  have hfields := steps.fields
  rw [h.fields, ← h'.fields, FieldGroup.placeAll_congr hsame] at hfields
  rw [h.core_frontier steps, h'.core_frontier steps']
  exact FieldGroup.placeAll_trails hgroups
    (h'.divides steps' hwell' hgroups hunit halign hmarkers hlead) h.packing h'.packing hfields
    steps'.fields hbased

lemma references_eq (h : c.Bare bases fields) :
    c.references = bases.map Prod.fst ++ fieldTypes fields := by
  rw [← h.bases, ← h.fields, List.map_map]
  rfl

/-- The local rules look at the fields of a bare type only. -/
lemma wellFormed (h : c.Bare bases fields) (h' : c'.Bare bases' fields)
    (hwell : c.WellFormed target) : c'.WellFormed target := by
  have hfields := h.fields.trans h'.fields.symm
  refine ⟨Or.inl h'.forcedAlign, ?_, ?_, hfields ▸ hwell.names, hfields ▸ hwell.fields⟩
  · rw [h'.forcedAlign]
    rintro _ ⟨⟩
  · rw [h'.packing]
    rintro _ ⟨⟩

lemma ownedTypes (h : c.Bare bases fields) : c.ownedBases.map Base.type =
    (bases.filter fun base => base.2 = .owned).map Prod.fst := by
  rw [← h.bases, List.filter_map, List.map_map, ownedBases]
  refine congrArg _ (List.filter_congr fun base _ => ?_)
  cases hsharing : base.sharing <;> simp [Base.isShared, hsharing]

/-- The cores that the owned bases lend, in order. -/
lemma ownedLent (h : c.Bare bases fields) (steps : Construction target isPod part c placed) :
    List.Forall₂ (Lends part) ((bases.filter fun base => base.2 = .owned).map Prod.fst)
      steps.owned := by
  rw [← h.ownedTypes, List.forall₂_map_left_iff]
  exact steps.ownedLent

/-- The shared bases of the hierarchy if all bases have the same ones of their own. -/
lemma shared_eq (h : c.Bare bases fields) (steps : Construction target isPod part c placed)
    (inner : List TypeId)
    (hinner : ∀ base ∈ bases, ∀ p, part base.1 = .ok p → p.shared = inner) :
    placed.shared = FirstSeen.noteAll [] (bases.flatMap fun base =>
      (if base.2 = .shared then [base.1] else []) ++ inner) := by
  have hhoisted : placed.shared = hoistOrder (fun _ => inner) c.bases := by
    refine hoisted_eq_hoistOrder steps.collected fun base hmem p hp => ?_
    have hlisted : (base.type, base.sharing) ∈ bases := by
      rw [← h.bases]
      exact List.mem_map_of_mem hmem
    exact (hinner _ hlisted p hp).symm
  rw [hhoisted, hoistOrder, ← h.bases, List.flatMap_map]
  simp [Base.isShared]

/-- A type with a shared base owns nothing. -/
lemma based_of_shared {top : TypeId} (h : c.Bare [(top, .shared)] fields)
    (steps : Construction target isPod part c placed) : steps.based = {} := by
  have howned := h.ownedLent steps
  have hbased := steps.bases
  rw [List.forall₂_nil_left_iff.mp howned, h.opened] at hbased
  exact (Except.ok.inj hbased).symm

/-- A type with an owned base begins with its core. -/
lemma based_of_owned {top : TypeId} (h : c.Bare [(top, .owned)] fields)
    (steps : Construction target isPod part c placed) :
    ∃ t start, part top = .ok t ∧ Draft.Embeds (c.site target) top .owned t.core
      (ownedBytes target isPod (top, t.core)) {} steps.based start := by
  obtain ⟨_, _, ⟨t, ht, rfl⟩, hnone, howned⟩ := List.forall₂_cons_left_iff.mp (h.ownedLent steps)
  have hbased := steps.bases
  rw [howned, List.forall₂_nil_left_iff.mp hnone, h.opened] at hbased
  obtain ⟨next, hnext, hbased⟩ := foldlM_cons_eq_ok.mp hbased
  obtain ⟨start, hembeds⟩ := Draft.embed_eq_ok hnext
  cases hbased
  exact ⟨t, start, ht, hembeds⟩

/-- A type with two owned bases begins with their cores. -/
lemma based_of_two {left right : TypeId} (h : c.Bare [(left, .owned), (right, .owned)] fields)
    (steps : Construction target isPod part c placed) :
    ∃ l r mid start start', part left = .ok l ∧ part right = .ok r ∧
      Draft.Embeds (c.site target) left .owned l.core
        (ownedBytes target isPod (left, l.core)) {} mid start ∧
      Draft.Embeds (c.site target) right .owned r.core
        (ownedBytes target isPod (right, r.core)) mid steps.based start' := by
  obtain ⟨_, _, ⟨l, hl, rfl⟩, hrest, howned⟩ := List.forall₂_cons_left_iff.mp (h.ownedLent steps)
  obtain ⟨_, _, ⟨r, hr, rfl⟩, hnone, rfl⟩ := List.forall₂_cons_left_iff.mp hrest
  have hbased := steps.bases
  rw [howned, List.forall₂_nil_left_iff.mp hnone, h.opened] at hbased
  obtain ⟨mid, hmid, hbased⟩ := foldlM_cons_eq_ok.mp hbased
  obtain ⟨next, hnext, hbased⟩ := foldlM_cons_eq_ok.mp hbased
  obtain ⟨start, hembeds⟩ := Draft.embed_eq_ok hmid
  obtain ⟨start', hembeds'⟩ := Draft.embed_eq_ok hnext
  cases hbased
  exact ⟨l, r, mid, start, start', hl, hr, hembeds, hembeds'⟩

/-- One shared base in the hierarchy lies behind everything else. -/
lemma complete_of_shared {top : TypeId} {t : Placed} (h : c.Bare bases fields)
    (steps : Construction target isPod part c placed) (hshared : placed.shared = [top])
    (ht : part top = .ok t) (hfilled : 0 < t.core.dataSize) :
    placed.layout.dataSize = roundUp placed.core.dataSize t.core.align + t.core.size ∧
      placed.layout.align = max placed.core.align t.core.align ∧
      ∃ offset, placed.layout.bases =
        steps.based.bases ++ [⟨top, offset, t.core.size, .shared⟩] := by
  have hlent := steps.hoistedLent
  rw [hshared] at hlent
  obtain ⟨_, _, ⟨t', ht', rfl⟩, hnone, hhoisted⟩ := List.forall₂_cons_left_iff.mp hlent
  obtain rfl : t = t' := Except.ok.inj (ht.symm.trans ht')
  have hcomplete := steps.shared
  rw [hhoisted, List.forall₂_nil_left_iff.mp hnone] at hcomplete
  obtain ⟨next, hnext, hcomplete⟩ := foldlM_cons_eq_ok.mp hcomplete
  cases hcomplete
  obtain ⟨start, hembeds⟩ := Draft.embed_eq_ok hnext
  obtain ⟨hstart, hoffset⟩ := hembeds.filled hfilled
  have hbases := hembeds.bases
  have halign := hembeds.align
  rw [if_neg hfilled.ne'] at hbases
  rw [h.granted] at hstart halign
  have hcore := h.core_frontier steps
  rw [Core.frontier] at hcore
  rw [steps.dataSize_eq, steps.align_eq, steps.bases_eq, hoffset, hstart, halign, hbases,
    h.forceAlign, ← hcore]
  exact ⟨rfl, rfl, start, rfl⟩

/-- The core of an owned base does not reach beyond that of the type. -/
lemma core_within {type : TypeId} {p : Placed} (h : c.Bare bases fields)
    (steps : Construction target isPod part c placed) (hwell : c.WellFormed target)
    (hregular : steps.PartsRegular) (hmem : (type, .owned) ∈ bases) (hp : part type = .ok p) :
    p.core.frontier.Trails 0 placed.core.frontier := by
  have htype : type ∈ c.ownedBases.map Base.type := by
    rw [h.ownedTypes]
    exact List.mem_map.mpr ⟨_, List.mem_filter.mpr ⟨hmem, by simp⟩, rfl⟩
  obtain ⟨base, hbase, rfl⟩ := List.mem_map.mp htype
  obtain ⟨listed, hlisted, htype⟩ := steps.exists_listed hbase
  obtain ⟨p', hp', hbears⟩ := hregular.owned_bears hwell hlisted
  rw [htype] at hp'
  obtain rfl : p = p' := Except.ok.inj (hp.symm.trans hp')
  have halign := hbears.align_le
  rw [h.granted] at halign
  exact ⟨(Nat.le_add_left _ _).trans hbears.within, halign⟩

section

variable {top : TypeId} {t : Placed} (hkeep : target.tailPadding = .keep)
  (hfilled : 0 < t.core.dataSize)
include hkeep hfilled

/-- A type that owns its base begins with the whole core of it. -/
lemma based_offset_of_owned (h : c.Bare [(top, .owned)] fields)
    (steps : Construction target isPod part c placed) (ht : part top = .ok t) :
    steps.based.frontier.offset = t.core.size := by
  obtain ⟨t', start, ht', hembeds⟩ := h.based_of_owned steps
  obtain rfl : t = t' := Except.ok.inj (ht.symm.trans ht')
  obtain ⟨hstart, hoffset⟩ := hembeds.filled hfilled
  rw [hoffset, hstart, h.granted, roundUp_zero, Nat.zero_add, ownedBytes, hkeep]

/-- So it holds data and has at least the alignment of the base. -/
lemma core_of_owned (h : c.Bare [(top, .owned)] fields)
    (steps : Construction target isPod part c placed) (ht : part top = .ok t)
    (hordered : steps.Ordered) (htop : t.core.Regular target) :
    0 < placed.core.dataSize ∧ t.core.align ≤ placed.core.align := by
  obtain ⟨t', start, ht', hembeds⟩ := h.based_of_owned steps
  obtain rfl : t = t' := Except.ok.inj (ht.symm.trans ht')
  have hoffset := h.based_offset_of_owned hkeep hfilled steps ht
  have hgrown := hordered.fields.offset
  have hdata : placed.core.dataSize = steps.frontier.offset :=
    congrArg Frontier.offset (h.core_frontier steps)
  have halign := hembeds.align
  rw [h.granted] at halign
  refine ⟨?_, ?_⟩
  · have hfits := htop.dataSize_le_size
    omega
  · exact (le_max_right _ _).trans (halign.ge.trans steps.based_align_le)

end

section

variable (hpointer : target.pointerSize.isPowerOfTwo) (hkeep : target.tailPadding = .keep)
  (steps : Construction target isPod part c placed)
  (steps' : Construction target isPod' part' c' placed') (hwell' : c'.WellFormed target)
  (hregular' : steps'.PartsRegular)
  (hextent : ∀ field ∈ fields, extent target part field.type = extent target part' field.type)
  (hunit : unit.isPowerOfTwo) (halign : placed'.core.align ≤ unit)
  (hmarkers : ∀ field ∈ fields, field.isMarker = true → field.storageUnit ≤ unit)
  (hlead : unit ∣ lead)
include steps steps' hpointer hkeep hwell' hregular' hextent hunit halign hmarkers hlead

/-- A side that shares the top trails one that owns it by what the top takes in front. -/
lemma side_trails {top : TypeId} {t : Placed} (h : c.Bare [(top, .shared)] fields)
    (h' : c'.Bare [(top, .owned)] fields) (ht : part' top = .ok t) (hfilled : 0 < t.core.dataSize)
    (hle : lead ≤ t.core.size) : placed.core.frontier.Trails lead placed'.core.frontier := by
  refine h.core_trails h' steps steps' hwell' hpointer hregular' hextent hunit halign hmarkers
    hlead ⟨?_, ?_⟩
  · rw [h.based_of_shared steps, h'.based_offset_of_owned hkeep hfilled steps' ht]
    exact (Nat.zero_add lead).trans_le hle
  · rw [h.based_of_shared steps]
    exact (steps'.based_align_le_iff.mp (le_refl _)).1

/-- Two bases that each trail another leave twice the lead. -/
lemma whole_trails {left right left' right' : TypeId} {l r l' r' : Placed}
    (h : c.Bare [(left, .owned), (right, .owned)] fields)
    (h' : c'.Bare [(left', .owned), (right', .owned)] fields)
    (hl : part left = .ok l) (hr : part right = .ok r) (hl' : part' left' = .ok l')
    (hr' : part' right' = .ok r') (hregular : steps.PartsRegular)
    (hleft : l.core.frontier.Trails lead l'.core.frontier)
    (hright : r.core.frontier.Trails lead r'.core.frontier)
    (hfilled : 0 < l'.core.dataSize) (hfilled' : 0 < r'.core.dataSize) :
    placed.core.frontier.Trails (lead + lead) placed'.core.frontier := by
  obtain ⟨_, _, mid, start, next, hl₁, hr₁, hfirst, hsecond⟩ := h.based_of_two steps
  obtain ⟨_, _, mid', start', next', hl₁', hr₁', hfirst', hsecond'⟩ := h'.based_of_two steps'
  cases hl.symm.trans hl₁
  cases hr.symm.trans hr₁
  cases hl'.symm.trans hl₁'
  cases hr'.symm.trans hr₁'
  have hcoreLeft := (hregular left l (Or.inl (by simp [h.references_eq])) hl).core
  have hcoreRight := (hregular right r (Or.inl (by simp [h.references_eq])) hr).core
  have hcoreLeft' := (hregular' left' l' (Or.inl (by simp [h'.references_eq])) hl').core
  have hcoreRight' := (hregular' right' r' (Or.inl (by simp [h'.references_eq])) hr').core
  have hpowerLeft := hcoreLeft.align hpointer
  have hpowerRight := hcoreRight.align hpointer
  -- The alignments of the bases count for the whole, so the lead is a multiple of them.
  have halignFirst := hfirst'.align
  have halignSecond := hsecond'.align
  rw [h'.granted] at halignFirst halignSecond
  have hbased := steps'.based_align_le.trans halign
  have hleLeft : l.core.align ≤ l'.core.align := hleft.align
  have hleRight : r.core.align ≤ r'.core.align := hright.align
  have hdvdLeft : l.core.align ∣ lead :=
    (dvd_of_isPowerOfTwo hpowerLeft hunit (by omega)).trans hlead
  have hdvdRight : r.core.align ∣ lead :=
    (dvd_of_isPowerOfTwo hpowerRight hunit (by omega)).trans hlead
  rw [ownedBytes, hkeep] at hfirst hsecond hfirst' hsecond'
  have hmid : mid.frontier.Trails (0 + lead) mid'.frontier :=
    hfirst.trails hfirst' h.packing h'.packing hpowerLeft (hcoreLeft'.align hpointer) hleLeft
      (Nat.dvd_zero _) hfilled (hleft.core_size hpointer hcoreLeft hcoreLeft' hdvdLeft)
      ⟨le_refl _, le_refl _⟩
  rw [Nat.zero_add] at hmid
  exact h.core_trails h' steps steps' hwell' hpointer hregular' hextent hunit halign hmarkers
    (Nat.dvd_add hlead hlead)
    (hsecond.trails hsecond' h.packing h'.packing hpowerRight (hcoreRight'.align hpointer) hleRight
      hdvdRight hfilled' (hright.core_size hpointer hcoreRight hcoreRight' hdvdRight) hmid)

end

end Bare

end Composite

end ObjectLayout
