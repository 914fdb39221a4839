import Mathlib.Data.Nat.ModEq
import ObjectLayout.Proofs.PackingClamps
import ObjectLayout.Proofs.ReportedSpans

/-!
# Loose clamps

A clamp that is not below the alignment of a type changes none of the alignments that were counted
for it. A marker is the one part that does not count: it rounds the frontier to its storage unit and
leaves the alignment of the type alone. So the layout under such a clamp is the one before exactly
if every marker still lies at the boundary of its unit.
-/
namespace ObjectLayout

/-- `n'` is at most `n` and apart from it by whole clamps, and neither of them is zero alone. -/
structure Lags (clamp n' n : Nat) : Prop where
  atMost : AtMost n' n
  apart : n' ≡ n [MOD clamp]

/-- A mask below a clamp does not see whole clamps. -/
lemma and_eq_of_modEq {clamp mask n' n : Nat} (hclamp : clamp.isPowerOfTwo) (hmask : mask < clamp)
    (h : n' ≡ n [MOD clamp]) : n' &&& mask = n &&& mask := by
  obtain ⟨k, rfl⟩ := hclamp
  have hcut (n : Nat) : n &&& mask = n % 2 ^ k &&& mask := by
    have hlt : n &&& mask < 2 ^ k := Nat.and_le_right.trans_lt hmask
    rw [← Nat.mod_eq_of_lt hlt, Nat.and_mod_two_pow, Nat.mod_eq_of_lt hmask]
  rw [hcut n', hcut n, h]

namespace Lags

variable {clamp align n' n : Nat}

lemma refl (clamp n : Nat) : Lags clamp n n := ⟨.refl n, rfl⟩

lemma add_right (h : Lags clamp n' n) (bytes : Nat) : Lags clamp (n' + bytes) (n + bytes) :=
  ⟨h.atMost.add (.refl bytes), h.apart.add_right bytes⟩

lemma max_one (h : Lags clamp n' n) : Lags clamp (max n' 1) (max n 1) := by
  rcases Nat.eq_zero_or_pos n with hzero | hpos
  · rw [h.atMost.2.mpr hzero, hzero]
    exact refl clamp _
  · have hpos' : 0 < n' := Nat.pos_of_ne_zero (mt h.atMost.2.mp hpos.ne')
    rwa [Nat.max_eq_left hpos', Nat.max_eq_left hpos]

/-- Rounding to no more than a clamp keeps whole clamps apart: it adds and clears the same. -/
lemma roundUp (h : Lags clamp n' n) (hclamp : clamp.isPowerOfTwo) (hpos : 0 < align)
    (hle : align ≤ clamp) :
    Lags clamp (ObjectLayout.roundUp n' align) (ObjectLayout.roundUp n align) := by
  have hmask : lowBits align < clamp := by
    rw [lowBits, if_neg hpos.ne']
    omega
  have hcleared := and_eq_of_modEq hclamp hmask (h.apart.add_right (lowBits align))
  have hbound := Nat.and_le_left (n := n + lowBits align) (m := lowBits align)
  have hle := h.atMost.1
  refine ⟨h.atMost.roundUp ?_, ?_⟩
  · simp only [ObjectLayout.roundUp]
    omega
  · simp only [ObjectLayout.roundUp, hcleared]
    refine Nat.ModEq.add_right_cancel' (n + lowBits align &&& lowBits align) ?_
    rw [Nat.sub_add_cancel hbound, Nat.sub_add_cancel (hcleared ▸ Nat.and_le_left)]
    exact h.apart.add_right _

/-- What is rounded to a unit and what is rounded to as much of it as a clamp grants. -/
lemma roundUp_cut {unit : Nat} (h : Lags clamp n' n) (hclamp : clamp.isPowerOfTwo)
    (hunit : unit.isPowerOfTwo) :
    Lags clamp (ObjectLayout.roundUp n' (min unit clamp)) (ObjectLayout.roundUp n unit) := by
  rcases Nat.le_total unit clamp with hle | hle
  · rw [Nat.min_eq_left hle]
    exact h.roundUp hclamp (Nat.pos_of_isPowerOfTwo hunit) hle
  · rw [Nat.min_eq_right hle]
    refine ⟨h.atMost.roundUp (roundUp_le_roundUp h.atMost.1 hclamp hunit hle), ?_⟩
    have hdvd : clamp ∣ ObjectLayout.roundUp n unit :=
      (dvd_of_isPowerOfTwo hclamp hunit hle).trans (dvd_roundUp hunit n)
    exact ((Nat.modEq_zero_iff_dvd.mpr (dvd_roundUp hclamp n')).trans
      (Nat.modEq_zero_iff_dvd.mpr hdvd).symm)

end Lags

/-- The first frontier has the alignment of the second one and lies whole clamps before it. -/
structure Frontier.Lags (clamp : Nat) (frontier' frontier : Frontier) : Prop where
  offset : ObjectLayout.Lags clamp frontier'.offset frontier.offset
  align : frontier'.align = frontier.align

/-- The site with a clamp in place of the one that it had. -/
def Site.clamped (site : Site) (clamp : Nat) : Site := { site with packing := some clamp }

/-- A marker lies at the boundary of its storage unit. -/
def Field.MarksUnit (field : Field) (placed : PlacedField) : Prop :=
  field.isMarker = true → field.storageUnit ∣ placed.offset

section

variable {site : Site} {clamp align : Nat}

lemma Site.granted_open (hopen : site.packing = none) (align : Nat) :
    site.granted align = align := by
  rw [granted, hopen]

lemma Site.granted_clamped (hopen : site.packing = none) (hle : align ≤ clamp) :
    (site.clamped clamp).granted align = site.granted align := by
  rw [granted_open hopen]
  exact min_eq_left hle

lemma Frontier.alignFor_clamped (hopen : site.packing = none) (hle : align ≤ clamp)
    (frontier : Frontier) :
    frontier.alignFor (site.clamped clamp) align = frontier.alignFor site align := by
  rw [alignFor, alignFor, regard, regard, roundTo, roundTo, Site.granted_clamped hopen hle]
  rfl

lemma Site.require_clamped {n' n : Nat} (h : Lags clamp n' n) :
    Carries (Lags clamp) ((site.clamped clamp).require (site.target.offset? n'))
      (site.require (site.target.offset? n)) := by
  intro m hm
  obtain ⟨hholds, rfl⟩ := require_offset_eq_ok.mp hm
  exact ⟨n', require_offset_eq_ok.mpr ⟨Target.holds_of_le hholds h.atMost.1, rfl⟩, h⟩

namespace Frontier.Lags

variable {frontier' frontier : Frontier}

lemma advance (h : Frontier.Lags clamp frontier' frontier) (bytes : Nat) :
    Carries (Frontier.Lags clamp) (frontier'.advance (site.clamped clamp) bytes)
      (frontier.advance site bytes) :=
  (Site.require_clamped (h.offset.add_right bytes)).bind fun _ _ hoffset => .ok ⟨hoffset, h.align⟩

/-- A unit may be cut by the clamp. -/
lemma roundTo_unit {unit : Nat} (h : Frontier.Lags clamp frontier' frontier)
    (hopen : site.packing = none) (hclamp : clamp.isPowerOfTwo) (hunit : unit.isPowerOfTwo) :
    Carries (Frontier.Lags clamp) (frontier'.roundTo (site.clamped clamp) unit)
      (frontier.roundTo site unit) := by
  have hgranted : (site.clamped clamp).granted unit = min unit clamp := rfl
  rw [Frontier.roundTo, Frontier.roundTo, Site.granted_open hopen, hgranted]
  exact (Site.require_clamped (h.offset.roundUp_cut hclamp hunit)).bind fun _ _ hoffset =>
    .ok ⟨hoffset, h.align⟩

/-- What counts for the alignment is granted alike. -/
lemma regard (h : Frontier.Lags clamp frontier' frontier) (hopen : site.packing = none)
    (hle : align ≤ clamp) :
    Frontier.Lags clamp (frontier'.regard (site.clamped clamp) align)
      (frontier.regard site align) := by
  refine ⟨h.offset, ?_⟩
  dsimp only [Frontier.regard]
  rw [Site.granted_clamped hopen hle, h.align]

lemma alignFor (h : Frontier.Lags clamp frontier' frontier) (hopen : site.packing = none)
    (hclamp : clamp.isPowerOfTwo) (hpos : 0 < align) (hle : align ≤ clamp) :
    Carries (Frontier.Lags clamp) (frontier'.alignFor (site.clamped clamp) align)
      (frontier.alignFor site align) := by
  rw [Frontier.alignFor, Frontier.alignFor, Frontier.roundTo, Frontier.roundTo,
    Site.granted_clamped hopen hle, Site.granted_open hopen]
  exact (Site.require_clamped (h.offset.roundUp hclamp hpos hle)).bind fun _ _ hoffset =>
    .ok ⟨hoffset, (h.regard hopen hle).align⟩

end Frontier.Lags

lemma Core.close_lags {frontier' frontier : Frontier} (h : Frontier.Lags clamp frontier' frontier)
    (hclamp : clamp.isPowerOfTwo) (hpos : 0 < frontier.align) (hle : frontier.align ≤ clamp)
    (slot : Option Nat) : Carries (fun core' core => Lags clamp core'.size core.size)
      (Core.close (site.clamped clamp) frontier' slot) (Core.close site frontier slot) := by
  unfold Core.close
  by_cases hempty : frontier.offset = 0
  · rw [if_pos hempty, if_pos (h.offset.atMost.2.mpr hempty)]
    exact .ok (.refl clamp 0)
  · rw [if_neg hempty, if_neg (mt h.offset.atMost.2.mp hempty), h.align]
    exact (Site.require_clamped (h.offset.roundUp hclamp hpos hle)).bind fun _ _ hsize => .ok hsize

namespace Draft

variable {sharing : Sharing} {bytes : TypeId × Core → Nat}

/-- Bases that the clamp does not cut are embedded behind a frontier that lags, too. -/
lemma embedAll_lags (hopen : site.packing = none) (hclamp : clamp.isPowerOfTwo)
    {cores : List (TypeId × Core)} (hpos : ∀ core ∈ cores, 0 < core.2.align)
    (hle : ∀ core ∈ cores, core.2.align ≤ clamp) {draft' draft : Draft}
    (h : Frontier.Lags clamp draft'.frontier draft.frontier) :
    Carries (fun last' last => Frontier.Lags clamp last'.frontier last.frontier)
      (draft'.embedAll (site.clamped clamp) sharing bytes cores)
      (draft.embedAll site sharing bytes cores) := by
  refine Carries.foldlM h (List.forall₂_same.mpr fun core hmem draft' draft h => ?_)
  unfold embed
  split
  · exact .ok (h.regard hopen (hle core hmem))
  · refine (h.alignFor hopen hclamp (hpos core hmem) (hle core hmem)).bind fun _ _ hstart => ?_
    exact (hstart.advance _).bind fun _ _ hnext => .ok hnext

lemma embedAll_clamped (hopen : site.packing = none) {cores : List (TypeId × Core)}
    (hle : ∀ core ∈ cores, core.2.align ≤ clamp) (draft : Draft) :
    draft.embedAll (site.clamped clamp) sharing bytes cores =
      draft.embedAll site sharing bytes cores := by
  refine foldlM_congr (fun core hmem draft => ?_) draft
  rw [embed, embed, Frontier.regard, Frontier.regard, Site.granted_clamped hopen (hle core hmem),
    Frontier.alignFor_clamped hopen (hle core hmem)]
  rfl

end Draft

end

namespace FieldGroup

variable {target : Target} {site : Site} {extent : FieldType → Except Rejection (Nat × Nat)}
  {frontier last : Frontier} {placed : List PlacedField} {clamp : Nat}

/-- A marker lies as far as its unit is granted. -/
lemma placeAll_marksGranted {groups : List FieldGroup}
    (hvalid : ∀ group ∈ groups, group.Valid target)
    (hsite : ∀ clamp ∈ site.packing, clamp.isPowerOfTwo)
    (h : placeAll site extent frontier groups = .ok (last, placed)) :
    List.Forall₂ (fun field one => field.isMarker = true →
      site.granted field.storageUnit ∣ one.offset) (groups.flatMap fields) placed := by
  induction groups generalizing frontier placed with
  | nil =>
    cases h
    exact .nil
  | cons group groups ih =>
    obtain ⟨next, first, others, hgroup, hrest, rfl⟩ := placeAll_cons_eq_ok h
    obtain ⟨hhead, htail⟩ := List.forall_mem_cons.mp hvalid
    rw [List.flatMap_cons]
    refine List.rel_append ?_ (ih htail hrest)
    cases group with
    | plain field =>
      obtain ⟨size, natural, -, start, -, -, rfl⟩ := place_plain_eq_ok hgroup
      refine .cons (fun hmarker => ?_) .nil
      simp [Field.isMarker, hhead.1] at hmarker
    | marker field =>
      obtain ⟨rfl, rfl⟩ := place_marker_eq_ok hgroup
      have hunit := storageUnit_isPowerOfTwo hhead.2 (by rw [hhead.1]; rfl)
      exact .cons (fun _ => dvd_roundUp (Site.granted_isPowerOfTwo hsite hunit) _) .nil
    | run unit members =>
      have hdata : ∀ field ∈ members, ¬ field.isMarker = true := by
        intro field hmem
        obtain ⟨-, ⟨width, hwidth⟩, -⟩ := hhead.2.2 field hmem
        simp [Field.isMarker, hwidth]
      refine List.forall₂_iff_get.mpr ⟨(length_place hgroup).symm, fun i hi _ hmarker => ?_⟩
      exact absurd hmarker (hdata _ (List.get_mem members ⟨i, hi⟩))

/-- A marker whose unit is cut by the clamp still rounds as its unit asks for, if that is where it
comes to lie. -/
lemma place_marker_clamped {field : Field} (hopen : site.packing = none)
    (hclamp : clamp.isPowerOfTwo) (hunit : field.storageUnit.isPowerOfTwo)
    (hdvd : field.storageUnit ∣ roundUp frontier.offset (min field.storageUnit clamp)) :
    (FieldGroup.marker field).place (site.clamped clamp) extent frontier =
      (FieldGroup.marker field).place site extent frontier := by
  have hcut := isPowerOfTwo_min hunit hclamp
  have hround : roundUp frontier.offset (min field.storageUnit clamp) =
      roundUp frontier.offset field.storageUnit := by
    refine le_antisymm ?_ ?_
    · exact roundUp_le_roundUp (le_refl _) hcut hunit (min_le_left _ _)
    · exact roundUp_le_of_dvd hunit (le_roundUp _ _) hdvd
  have hgranted : (site.clamped clamp).granted field.storageUnit = min field.storageUnit clamp :=
    rfl
  rw [place, place, Frontier.roundTo, Frontier.roundTo, Target.roundUp?, Target.roundUp?, hgranted,
    hround, Site.granted_open hopen]
  rfl

lemma place_clamped {group : FieldGroup} (hopen : site.packing = none)
    (hclamp : clamp.isPowerOfTwo) (hvalid : group.Valid target)
    (hle : ∀ align ∈ group.aligns extent, align ≤ clamp)
    (h : group.place (site.clamped clamp) extent frontier = .ok (last, placed))
    (hmarkers : List.Forall₂ Field.MarksUnit group.fields placed) :
    group.place site extent frontier = .ok (last, placed) := by
  rw [← h]
  cases group with
  | plain field =>
    rw [place, place]
    refine bind_congr_ok ?_
    rintro ⟨size, natural⟩ hextent
    have hbound := hle (max natural (field.forcedAlign.getD 1)) (by simp [aligns, hextent])
    dsimp only
    rw [Frontier.alignFor_clamped hopen hbound]
    rfl
  | marker field =>
    obtain ⟨rfl, rfl⟩ := place_marker_eq_ok h
    have hunit : field.storageUnit.isPowerOfTwo :=
      storageUnit_isPowerOfTwo hvalid.2 (by rw [hvalid.1]; rfl)
    cases hmarkers with
    | cons hmarks _ =>
      have hdvd := hmarks (by simp [Field.isMarker, hvalid.1])
      exact (place_marker_clamped hopen hclamp hunit hdvd).symm
  | run unit members =>
    have hbound : unit ≤ clamp := hle unit (List.mem_singleton_self unit)
    rw [place, place]
    dsimp only [PackedRun.ofMembers]
    rw [Frontier.alignFor_clamped hopen hbound]
    rfl

lemma place_lags {group : FieldGroup} (hopen : site.packing = none) (hclamp : clamp.isPowerOfTwo)
    (hvalid : group.Valid target) (hle : ∀ align ∈ group.aligns extent, align ≤ clamp)
    {frontier' : Frontier} (h : Frontier.Lags clamp frontier' frontier) :
    Carries (fun result' result => Frontier.Lags clamp result'.1 result.1)
      (group.place (site.clamped clamp) extent frontier')
      (group.place site extent frontier) := by
  cases group with
  | plain field =>
    refine (Carries.refl (extent field.type)).and_eq_ok.bind ?_
    rintro _ ⟨size, natural⟩ ⟨rfl, hextent⟩
    have hpos := Nat.pos_of_isPowerOfTwo (forcedAlign_isPowerOfTwo hvalid.2)
    have halign := hle (max natural (field.forcedAlign.getD 1)) (by simp [aligns, hextent])
    refine (h.alignFor hopen hclamp (lt_max_of_lt_right hpos) halign).bind fun _ _ hstart => ?_
    exact (hstart.advance size).bind fun _ _ hnext => .ok hnext
  | marker field =>
    have hunit := storageUnit_isPowerOfTwo hvalid.2 (by rw [hvalid.1]; rfl)
    exact (h.roundTo_unit hopen hclamp hunit).bind fun _ _ hnext => .ok hnext
  | run unit members =>
    have halign : unit ≤ clamp := hle unit (List.mem_singleton_self unit)
    refine (h.alignFor hopen hclamp hvalid.1 halign).bind fun _ _ hstart => ?_
    exact (hstart.advance _).bind fun _ _ hnext => .ok hnext

/-- Fields can be placed under a clamp that none of them asks beyond: the frontier only lags behind
by what the markers round less. -/
lemma placeAll_lags {groups : List FieldGroup} (hopen : site.packing = none)
    (hclamp : clamp.isPowerOfTwo) (hvalid : ∀ group ∈ groups, group.Valid target)
    (hle : ∀ group ∈ groups, ∀ align ∈ group.aligns extent, align ≤ clamp)
    {frontier' : Frontier} (h : Frontier.Lags clamp frontier' frontier) :
    Carries (fun result' result => Frontier.Lags clamp result'.1 result.1)
      (placeAll (site.clamped clamp) extent frontier' groups)
      (placeAll site extent frontier groups) := by
  induction groups generalizing frontier' frontier with
  | nil => exact .ok h
  | cons group groups ih =>
    obtain ⟨hhead, htail⟩ := List.forall_mem_cons.mp hvalid
    obtain ⟨hbound, hbounds⟩ := List.forall_mem_cons.mp hle
    refine (place_lags hopen hclamp hhead hbound h).bind fun _ _ hnext => ?_
    exact (ih htail hbounds hnext).bind fun _ _ hlast => .ok hlast

/-- Fields placed under a clamp that none of them asks beyond lie as without it, if the markers lie
at the boundaries of their units. -/
lemma placeAll_clamped {groups : List FieldGroup} (hopen : site.packing = none)
    (hclamp : clamp.isPowerOfTwo) (hvalid : ∀ group ∈ groups, group.Valid target)
    (hle : ∀ group ∈ groups, ∀ align ∈ group.aligns extent, align ≤ clamp)
    (h : placeAll (site.clamped clamp) extent frontier groups = .ok (last, placed))
    (hmarkers : List.Forall₂ Field.MarksUnit (groups.flatMap fields) placed) :
    placeAll site extent frontier groups = .ok (last, placed) := by
  induction groups generalizing frontier placed with
  | nil => exact h
  | cons group groups ih =>
    obtain ⟨next, first, others, hgroup, hrest, rfl⟩ := placeAll_cons_eq_ok h
    obtain ⟨hhead, htail⟩ := List.forall_mem_cons.mp hvalid
    obtain ⟨hbound, hbounds⟩ := List.forall_mem_cons.mp hle
    rw [List.flatMap_cons] at hmarkers
    have hlength := length_place hgroup
    have hfirst := List.forall₂_take_append _ _ _ hmarkers
    have hothers := List.forall₂_drop_append _ _ _ hmarkers
    rw [hlength, List.take_left] at hfirst
    rw [hlength, List.drop_left] at hothers
    exact bind_eq_ok.mpr ⟨_, place_clamped hopen hclamp hhead hbound hgroup hfirst,
      bind_eq_ok.mpr ⟨_, ih htail hbounds hrest hothers, rfl⟩⟩

end FieldGroup

namespace Composite

variable {target : Target} {isPod : TypeId → Bool} {part : TypeId → Except Rejection Placed}
  {c : Composite} {placed placed' : Placed} {owned : List (TypeId × Core)} {clamp : Nat}

lemma openSlot_clamped (hopen : c.packing = none)
    (hle : c.opensSlot owned = true → target.pointerSize ≤ clamp) :
    (c.packed clamp).openSlot target owned = c.openSlot target owned := by
  unfold openSlot
  have hslot : (c.packed clamp).introducesDispatch = c.introducesDispatch := rfl
  rw [hslot, ← opensSlot]
  by_cases hopens : c.opensSlot owned = true
  · have halign : Frontier.alignFor ((c.site target).clamped clamp) {} target.pointerSize =
        Frontier.alignFor (c.site target) {} target.pointerSize :=
      Frontier.alignFor_clamped hopen (hle hopens) {}
    have hsite : (c.packed clamp).site target = (c.site target).clamped clamp := rfl
    rw [if_pos hopens, if_pos hopens, hsite]
    dsimp only
    rw [halign]
    rfl
  · rw [if_neg hopens, if_neg hopens]

namespace Construction

/-- Nothing that counts for the alignment of the type is granted more than the bound. -/
structure Counts (steps : Construction target isPod part c placed) (bound : Nat) : Prop where
  slot : c.opensSlot steps.owned = true → (c.site target).granted target.pointerSize ≤ bound
  owned : ∀ core ∈ steps.owned, (c.site target).granted core.2.align ≤ bound
  groups : ∀ group ∈ FieldGroup.ofFields c.fields, ∀ align ∈ group.aligns (extent target part),
    (c.site target).granted align ≤ bound
  hoisted : ∀ core ∈ steps.hoisted, (c.site target).granted core.2.align ≤ bound

/-- Without a clamp, what counts for the alignment is asked for in full. -/
lemma le_clamp {align : Nat} (_ : Construction target isPod part c placed)
    (hopen : c.packing = none) (hle : placed.layout.align ≤ clamp)
    (h : (c.site target).granted align ≤ placed.layout.align) : align ≤ clamp := by
  rw [Site.granted_open hopen] at h
  exact h.trans hle

lemma counts (steps : Construction target isPod part c placed) :
    steps.Counts placed.layout.align := by
  have hcomplete := steps.align_eq.ge
  rw [Draft.embedAll_align_le_iff steps.shared, forceAlign_align_le_iff,
    FieldGroup.placeAll_align_le_iff steps.fields] at hcomplete
  obtain ⟨⟨⟨hbased, hgroups⟩, -⟩, hhoisted⟩ := hcomplete
  exact ⟨(steps.based_align_le_iff.mp hbased).2.1,
    ((Draft.embedAll_align_le_iff steps.bases).mp hbased).2, hgroups, hhoisted⟩

/-- Up to the fields nothing rounds less under a loose clamp. -/
lemma based_clamped (steps : Construction target isPod part c placed) (hopen : c.packing = none)
    (hle : placed.layout.align ≤ clamp) :
    (c.packed clamp).openSlot target steps.owned = .ok steps.opened ∧
      steps.opened.embedAll ((c.packed clamp).site target) .owned (ownedBytes target isPod)
        steps.owned = .ok steps.based := by
  have hcounts := steps.counts
  constructor
  · rw [openSlot_clamped hopen fun hopens => (steps.le_clamp hopen hle (hcounts.slot hopens))]
    exact steps.slot
  · have hsite : (c.packed clamp).site target = (c.site target).clamped clamp := rfl
    rw [hsite, Draft.embedAll_clamped hopen fun core hmem =>
      steps.le_clamp hopen hle (hcounts.owned core hmem)]
    exact steps.bases

/-- The core can be placed under a loose clamp, and its frontier lags behind. -/
lemma exists_placeOwn_clamped (steps : Construction target isPod part c placed)
    (hwell : c.WellFormed target) (hforced : c.forcedAlign = none) (hopen : c.packing = none)
    (hclamp : clamp.isPowerOfTwo) (hle : placed.layout.align ≤ clamp) :
    ∃ frontier' fields, (c.packed clamp).placeOwn target isPod part =
        .ok ({ steps.based with frontier := frontier' }, fields) ∧
      Frontier.Lags clamp frontier' steps.frontier := by
  obtain ⟨hslot, hbases⟩ := steps.based_clamped hopen hle
  obtain ⟨⟨frontier', fields⟩, hfields, hlast⟩ := FieldGroup.placeAll_lags hopen hclamp
    (FieldGroup.ofFields_valid hwell.fields)
    (fun group hmem align hasked => steps.le_clamp hopen hle
      (steps.counts.groups group hmem align hasked)) ⟨.refl clamp _, rfl⟩ _ steps.fields
  have hforce : (c.packed clamp).forceAlign frontier' = frontier' := by
    rw [forceAlign, packed, hforced]
  refine ⟨frontier', fields, ?_, hlast⟩
  refine bind_eq_ok.mpr ⟨_, mapM_of_lends steps.ownedLent, bind_eq_ok.mpr ⟨_, hslot,
    bind_eq_ok.mpr ⟨_, hbases, bind_eq_ok.mpr ⟨_, hfields, ?_⟩⟩⟩⟩
  dsimp only
  rw [hforce]
  rfl

/-- Under a loose clamp the type can be placed, too. -/
theorem PartsRegular.exists_place_clamped {steps : Construction target isPod part c placed}
    (h : steps.PartsRegular) (hwell : c.WellFormed target) (hforced : c.forcedAlign = none)
    (hopen : c.packing = none) (hclamp : clamp.isPowerOfTwo) (hle : placed.layout.align ≤ clamp) :
    ∃ placed', (c.packed clamp).place target isPod part = .ok placed' := by
  have hregular := h.regular hwell
  have hforce : c.forceAlign steps.frontier = steps.frontier := by
    rw [forceAlign, hforced]
  have hclosed := steps.closed
  have hshared := steps.shared
  have hpos := hregular.core.pos
  have hcore := hregular.align_le.trans hle
  rw [hforce] at hclosed hshared
  rw [steps.core, hforce] at hpos hcore
  obtain ⟨frontier', fields, hown, hlast⟩ :=
    steps.exists_placeOwn_clamped hwell hforced hopen hclamp hle
  obtain ⟨core', hclose, -⟩ := Core.close_lags hlast hclamp hpos hcore _ _ hclosed
  have hhoisted : Carries (fun last' last => Frontier.Lags clamp last'.frontier last.frontier)
      (Draft.embedAll ((c.packed clamp).site target) .shared (fun base => base.2.size)
        { steps.based with frontier := frontier' } steps.hoisted)
      (Draft.embedAll (c.site target) .shared (fun base => base.2.size)
        { steps.based with frontier := steps.frontier } steps.hoisted) :=
    Draft.embedAll_lags hopen hclamp (fun core hmem => (h.hoisted core hmem).pos)
      (fun core hmem => steps.le_clamp hopen hle (steps.counts.hoisted core hmem)) hlast
  obtain ⟨complete', hcomplete', hcomplete⟩ := hhoisted _ hshared
  have hsize : Carries (Lags clamp)
      (((c.packed clamp).site target).require
        (target.roundUp? (max complete'.frontier.offset 1) complete'.frontier.align))
      ((c.site target).require (target.roundUp? (max steps.complete.frontier.offset 1)
        steps.complete.frontier.align)) := by
    rw [hcomplete.align, ← steps.align_eq]
    exact Site.require_clamped (hcomplete.offset.max_one.roundUp hclamp
      (hregular.core.pos.trans_le hregular.align_le) hle)
  obtain ⟨size', hsize', -⟩ := hsize _ steps.sized
  rw [← placeShared_of_lends steps.hoistedLent] at hcomplete'
  exact ⟨_, bind_eq_ok.mpr ⟨_, hown, bind_eq_ok.mpr ⟨_, hclose, bind_eq_ok.mpr ⟨_, steps.collected,
    bind_eq_ok.mpr ⟨_, hcomplete', bind_eq_ok.mpr ⟨_, hsize', rfl⟩⟩⟩⟩⟩⟩

/-- Under a loose clamp the type is placed as without it, if the markers lie at the boundaries of
their units. -/
theorem layout_clamped (steps : Construction target isPod part c placed)
    (steps' : Construction target isPod part (c.packed clamp) placed')
    (hwell : c.WellFormed target) (hopen : c.packing = none) (hclamp : clamp.isPowerOfTwo)
    (hle : placed.layout.align ≤ clamp)
    (hmarkers : List.Forall₂ Field.MarksUnit c.fields placed'.layout.fields) :
    placed'.layout = placed.layout := by
  have hsite : (c.packed clamp).site target = (c.site target).clamped clamp := rfl
  have hcounts := steps.counts
  obtain ⟨howned, -, hhoisted⟩ := steps.cores_eq steps' rfl
  obtain ⟨hslot, hbases⟩ := steps.based_clamped hopen hle
  have hopened : steps'.opened = steps.opened :=
    Except.ok.inj (steps'.slot.symm.trans (howned ▸ hslot))
  have hbased : steps'.based = steps.based :=
    Except.ok.inj (steps'.bases.symm.trans (howned ▸ hopened ▸ hbases))
  have hfields := steps'.fields
  rw [hbased, hsite] at hfields
  rw [← FieldGroup.flatMap_fields_ofFields c.fields] at hmarkers
  have hplaced := FieldGroup.placeAll_clamped hopen hclamp (FieldGroup.ofFields_valid hwell.fields)
    (fun group hmem align hasked => steps.le_clamp hopen hle
      (hcounts.groups group hmem align hasked)) hfields hmarkers
  obtain ⟨hfrontier, hlisted⟩ := Prod.mk.inj (Except.ok.inj (hplaced.symm.trans steps.fields))
  have hcomplete : steps'.complete = steps.complete := by
    have hshared := steps'.shared
    rw [hhoisted, hbased, hfrontier, hsite, Draft.embedAll_clamped hopen fun core hmem =>
      steps.le_clamp hopen hle (hcounts.hoisted core hmem)] at hshared
    exact Except.ok.inj (hshared.symm.trans steps.shared)
  rw [steps'.layout, steps.layout, steps'.size_eq, steps.size_eq, hcomplete, hlisted]

/-- Markers lie as far as their units are granted. -/
lemma marksGranted (steps : Construction target isPod part c placed) (hwell : c.WellFormed target) :
    List.Forall₂ (fun field one => field.isMarker = true →
      (c.site target).granted field.storageUnit ∣ one.offset) c.fields placed.layout.fields := by
  have hmarks :=
    FieldGroup.placeAll_marksGranted (FieldGroup.ofFields_valid hwell.fields) hwell.packing
      steps.fields
  rwa [FieldGroup.flatMap_fields_ofFields] at hmarks

end Construction

end Composite

namespace TypeTable

/-- A type without directives that has a layout is accepted under a clamp at or above the alignment
of the layout, and has the same layout exactly if each of its markers lies at the boundary of its
storage unit still; so it does if the clamp cuts no unit of a marker. -/
theorem layout_packed_loosely (table : TypeTable) (target : Target) (id : TypeId) (c : Composite)
    (layout : Layout) (clamp : Nat) (hc : table.get? id = some c) (hforced : c.forcedAlign = none)
    (hopen : c.packing = none) (h : table.layout target id = .ok layout)
    (hclamp : clamp.isPowerOfTwo) (hle : layout.align ≤ clamp) :
    ∃ layout', (table.redefine id (c.packed clamp)).layout target id = .ok layout' ∧
      (layout' = layout ↔ List.Forall₂ Field.MarksUnit c.fields layout'.fields) ∧
      ((∀ field ∈ c.fields, field.isMarker = true → field.storageUnit ≤ clamp) →
        layout' = layout) := by
  obtain ⟨align, placed, haccepted, hplaced, rfl⟩ := layout_eq_ok h
  have hwell := haccepted.wellFormed hc
  have hsame : (c.packed clamp).references ⊆ c.references := List.Subset.refl _
  obtain ⟨aligns, -, haccepted'⟩ :=
    haccepted.redefine hc hsame (hwell.packed hforced hclamp) hforced
  obtain ⟨part, parts, hplace, hplaced'⟩ := hplaced.redefine haccepted.acyclic hc hsame
  obtain ⟨steps⟩ := Composite.exists_construction hplace.symm
  have hregular := hplaced.partsRegular haccepted hc parts steps
  obtain ⟨placed', hplace'⟩ :=
    hregular.exists_place_clamped hwell hforced hopen hclamp hle
  rw [hplace'] at hplaced'
  obtain ⟨steps'⟩ := Composite.exists_construction hplace'
  have hback := steps.layout_clamped steps' hwell hopen hclamp hle
  refine ⟨placed'.layout, layout_of_placedAs haccepted' hplaced', ⟨fun heq => ?_, hback⟩,
    fun hunits => hback ?_⟩
  · rw [heq]
    refine (steps.marksGranted hwell).imp fun field one hmarks hmarker => ?_
    have hdvd := hmarks hmarker
    rwa [Site.granted_open hopen] at hdvd
  · have hmarks := steps'.marksGranted (hwell.packed hforced hclamp)
    refine List.forall₂_iff_get.mpr ⟨hmarks.length_eq, fun i hi hi' hmarker => ?_⟩
    have hdvd := hmarks.get hi hi' hmarker
    have hunit := hunits _ (List.get_mem c.fields ⟨i, hi⟩) hmarker
    have hgranted : ((c.packed clamp).site target).granted (c.fields.get ⟨i, hi⟩).storageUnit =
        (c.fields.get ⟨i, hi⟩).storageUnit := min_eq_left hunit
    rwa [← hgranted]

/-- A marker for a unit of eight bytes in a record of alignment four. -/
def chapter : Composite :=
  { name := "Chapter", bases := [{ type := ⟨0⟩ }, { type := ⟨1⟩, sharing := .shared }]
    fields := [{ name := "kind", type := .char },
      { name := "low", type := .int, bitWidth := some 20 },
      { name := "", type := .longLong, bitWidth := some 0 }, { name := "mark", type := .char }] }

def chapters : TypeTable :=
  { entries := #[
      ⟨"Counted", some
        { name := "Counted"
          fields := [{ name := "count", type := .int }, { name := "flag", type := .char }] }⟩,
      ⟨"Titled", some { name := "Titled", fields := [{ name := "title", type := .short }] }⟩,
      ⟨"Chapter", some chapter⟩] }

/-- A clamp to four bytes cuts the unit of the marker, but it lies at a multiple of eight anyway. -/
theorem layout_packed_loosely_chapter :
    let layout : Layout :=
      { size := 20, align := 4, dataSize := 20, dispatch := none
        fields := [⟨"kind", 8, 1, none⟩, ⟨"low", 12, 4, some ⟨0, 20⟩⟩, ⟨"", 16, 0, some ⟨0, 0⟩⟩,
          ⟨"mark", 16, 1, none⟩]
        bases := [⟨⟨0⟩, 0, 8, .owned⟩, ⟨⟨1⟩, 18, 2, .shared⟩] }
    chapters.layout .lp64 ⟨2⟩ = .ok layout ∧
      (chapters.redefine ⟨2⟩ (chapter.packed 4)).layout .lp64 ⟨2⟩ = .ok layout ∧
      List.Forall₂ Field.MarksUnit chapter.fields layout.fields := by
  intro layout
  have hlayout : chapters.layout .lp64 ⟨2⟩ = .ok layout := by decide +kernel
  have hpacked : (chapters.redefine ⟨2⟩ (chapter.packed 4)).layout .lp64 ⟨2⟩ = .ok layout := by
    decide +kernel
  obtain ⟨layout', hlayout', hiff, -⟩ := layout_packed_loosely chapters .lp64 ⟨2⟩ chapter layout 4
    rfl rfl rfl hlayout ⟨2, rfl⟩ (by decide)
  obtain rfl : layout' = layout := Except.ok.inj (hlayout'.symm.trans hpacked)
  exact ⟨hlayout, hpacked, hiff.mp rfl⟩

/-- Nothing but a marker asks for an alignment. -/
def marked : Composite :=
  { name := "Marked"
    fields := [{ name := "first", type := .char },
      { name := "", type := .longLong, bitWidth := some 0 }, { name := "second", type := .char }] }

/-- A clamp to one byte, the alignment of the layout, takes the padding before the marker. -/
theorem layout_moved_by_loose_clamp :
    let table : TypeTable := { entries := #[⟨"Marked", some marked⟩] }
    let layout : Layout :=
      { size := 9, align := 1, dataSize := 9, dispatch := none, bases := []
        fields := [⟨"first", 0, 1, none⟩, ⟨"", 8, 0, some ⟨0, 0⟩⟩, ⟨"second", 8, 1, none⟩] }
    let layout' : Layout :=
      { size := 2, align := 1, dataSize := 2, dispatch := none, bases := []
        fields := [⟨"first", 0, 1, none⟩, ⟨"", 1, 0, some ⟨0, 0⟩⟩, ⟨"second", 1, 1, none⟩] }
    answer ((table.accept .lp64 ⟨0⟩).run {}) = .ok 1 ∧ marked.forcedAlign = none ∧
      marked.packing = none ∧ table.layout .lp64 ⟨0⟩ = .ok layout ∧
      (table.redefine ⟨0⟩ (marked.packed layout.align)).layout .lp64 ⟨0⟩ = .ok layout' ∧
      layout' ≠ layout := by
  intro table layout layout'
  have haccepted : answer ((table.accept .lp64 ⟨0⟩).run {}) = .ok 1 := by decide +kernel
  have hlayout : table.layout .lp64 ⟨0⟩ = .ok layout := by decide +kernel
  have hpacked : (table.redefine ⟨0⟩ (marked.packed layout.align)).layout .lp64 ⟨0⟩ =
      .ok layout' := by decide +kernel
  exact ⟨haccepted, rfl, rfl, hlayout, hpacked, by decide⟩

end TypeTable

end ObjectLayout
