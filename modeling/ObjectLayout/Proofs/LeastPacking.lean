import Mathlib.Order.Bounds.Basic
import ObjectLayout.Proofs.AddressBounds
import ObjectLayout.Proofs.ReportedSpans

/-!
# Least packing

Packing is greedy: a member takes the first position that is left, or the next unit where it would
straddle one. Every other way to keep the members in order, none of them across two units, puts
each member at the same bit or behind it, as long as a member of width zero keeps closing the unit:
where it may stand inside a member before it, the next member could still share the unit.
-/
namespace ObjectLayout

namespace BitPlace

/-- The same member at the same bit or before it. -/
def NoLater (place other : BitPlace) : Prop :=
  place.item = other.item ∧ place.bitOffset ≤ other.bitOffset

end BitPlace

namespace BitPacking

/-- The members have their places in order: those that hold bits lie apart and each in one unit, and
those of width zero stand on the boundary of a unit. -/
structure InUnits (unitBits : Nat) (members : List BitItem) (places : List BitPlace) : Prop where
  members : places.map BitPlace.item = members
  sorted : places.Pairwise fun a b => a.bitOffset ≤ b.bitOffset
  apart : places.Pairwise fun a b => 0 < a.width → 0 < b.width → a.stop ≤ b.bitOffset
  whole : ∀ place ∈ places, 0 < place.width →
    place.bitOffset / unitBits = (place.stop - 1) / unitBits
  boundary : ∀ place ∈ places, place.width = 0 → unitBits ∣ place.bitOffset

/-- A member of width zero stands behind all members before it that hold bits. -/
def Closing (places : List BitPlace) : Prop :=
  places.Pairwise fun a b => 0 < a.width → b.width = 0 → a.stop ≤ b.bitOffset

/-- The bytes are whole units and enough for all places. -/
def Enough (unit : Nat) (places : List BitPlace) (bytes : Nat) : Prop :=
  unit ∣ bytes ∧ ∀ place ∈ places, place.stop ≤ 8 * bytes

/-- What is enough for members is enough where they lie before. -/
lemma Enough.of_noLater {unit bytes : Nat} {places others : List BitPlace}
    (h : Enough unit others bytes) (hle : List.Forall₂ BitPlace.NoLater places others) :
    Enough unit places bytes := by
  refine ⟨h.1, fun place hmem => ?_⟩
  obtain ⟨other, hother, hitem, hoffset⟩ := exists_of_mem_left hle hmem
  have hwidth : place.width = other.width := congrArg BitItem.width hitem
  have hstop := h.2 other hother
  rw [BitPlace.stop] at hstop ⊢
  omega

variable {unitBits position : Nat} {items : List BitItem} {place : BitPlace}
  {places : List BitPlace}

lemma InUnits.stop_le (h : InUnits unitBits items places) (hclosing : Closing places) :
    places.Pairwise fun a b => a.stop ≤ b.bitOffset := by
  refine ((h.sorted.and h.apart).and hclosing).imp ?_
  rintro a b ⟨⟨hsorted, hapart⟩, hclosed⟩
  rcases Nat.eq_zero_or_pos a.width with ha | ha
  · rwa [BitPlace.stop, ha]
  · rcases Nat.eq_zero_or_pos b.width with hb | hb
    · exact hclosed ha hb
    · exact hapart ha hb

lemma exists_start_of_mem_assign (h : place ∈ assign unitBits position items) :
    ∃ taken, place.bitOffset = start unitBits taken place.width := by
  induction items generalizing position with
  | nil => cases h
  | cons item items ih =>
    rw [assign] at h
    rcases List.mem_cons.mp h with rfl | hmem
    · exact ⟨position, rfl⟩
    · exact ih hmem

/-- A member that is no wider than a unit ends within the unit in which it begins. -/
lemma start_mod_add_le (position : Nat) {width : Nat} (hwidth : width ≤ unitBits) :
    start unitBits position width % unitBits + width ≤ unitBits := by
  unfold start
  split
  · rw [Nat.mod_eq_zero_of_dvd (dvd_nextMultiple position unitBits)]
    omega
  · omega

lemma div_start_eq (hunit : 0 < unitBits) {width : Nat} (hpos : 0 < width)
    (hwidth : width ≤ unitBits) :
    start unitBits position width / unitBits =
      (start unitBits position width + width - 1) / unitBits := by
  have hfits := start_mod_add_le position hwidth
  refine ((Nat.div_eq_iff hunit).mpr ?_).symm
  have := Nat.div_add_mod' (start unitBits position width) unitBits
  omega

lemma assign_inUnits (hunit : 0 < unitBits) (hwidths : ∀ item ∈ items, item.width ≤ unitBits) :
    InUnits unitBits items (assign unitBits position items) := by
  refine ⟨map_item_assign _ _ _, assign_sorted hunit _ _, ?_, fun place hmem hpos => ?_,
    fun place hmem hzero => ?_⟩
  · exact (assign_stop_le hunit position items).imp fun hle _ _ => hle
  · obtain ⟨taken, htaken⟩ := exists_start_of_mem_assign hmem
    have hwidth : place.width ≤ unitBits := by
      refine hwidths place.item ?_
      rw [← map_item_assign unitBits position items]
      exact List.mem_map_of_mem hmem
    rw [BitPlace.stop, htaken]
    exact div_start_eq hunit hpos hwidth
  · obtain ⟨taken, htaken⟩ := exists_start_of_mem_assign hmem
    rw [htaken, start, if_pos (Or.inl hzero)]
    exact dvd_nextMultiple _ _

lemma assign_closing (hunit : 0 < unitBits) (position : Nat) (items : List BitItem) :
    Closing (assign unitBits position items) :=
  (assign_stop_le hunit position items).imp fun hle _ _ => hle

/-- A member that lies in one unit behind the position lies where packing puts it, or behind. -/
lemma start_le_bitOffset (hunit : 0 < unitBits) (hposition : position ≤ place.bitOffset)
    (hwhole : 0 < place.width → place.bitOffset / unitBits = (place.stop - 1) / unitBits)
    (hboundary : place.width = 0 → unitBits ∣ place.bitOffset) :
    start unitBits position place.width ≤ place.bitOffset := by
  rcases Nat.eq_zero_or_pos place.width with hzero | hpos
  · rw [start, if_pos (Or.inl hzero)]
    exact nextMultiple_le_of_dvd hunit hposition (hboundary hzero)
  · -- The unit `k` holds the member: packing stays before it, or has room left in it.
    have hlast := hwhole hpos
    have hoffset := Nat.div_add_mod' place.bitOffset unitBits
    generalize place.bitOffset / unitBits = k at hlast hoffset
    have hstop : place.stop - 1 < k * unitBits + unitBits :=
      ((Nat.div_eq_iff hunit).mp hlast.symm).2.trans_lt (by omega)
    rcases Nat.le_total position (k * unitBits) with hbefore | hwithin
    · exact (start_le hunit hbefore place.width).trans (by omega)
    · have hmod : position % unitBits = position - k * unitBits := by
        rw [← Nat.sub_mul_mod (k := k) (Nat.mul_comm unitBits k ▸ hwithin), Nat.mul_comm unitBits k]
        exact Nat.mod_eq_of_lt (by rw [BitPlace.stop] at hstop; omega)
      rw [start, if_neg]
      · exact hposition
      · rw [BitPlace.stop] at hstop
        omega

/-- Packing puts every member at the first bit that it can have. -/
lemma assign_le (hunit : 0 < unitBits) (h : InUnits unitBits items places)
    (hclosing : Closing places) (hposition : ∀ place ∈ places, position ≤ place.bitOffset) :
    List.Forall₂ BitPlace.NoLater (assign unitBits position items) places := by
  have hstops := h.stop_le hclosing
  obtain ⟨rfl, -, -, hwhole, hboundary⟩ := h
  induction places generalizing position with
  | nil => exact .nil
  | cons place places ih =>
    obtain ⟨hbehind, hrest⟩ := List.pairwise_cons.mp hstops
    obtain ⟨hwhole, hwholes⟩ := List.forall_mem_cons.mp hwhole
    obtain ⟨hboundary, hboundaries⟩ := List.forall_mem_cons.mp hboundary
    have hfirst := start_le_bitOffset hunit (hposition place List.mem_cons_self) hwhole hboundary
    refine .cons ⟨rfl, hfirst⟩ (ih (List.pairwise_cons.mp hclosing).2 (fun other hmem => ?_) hrest
      hwholes hboundaries)
    exact (Nat.add_le_add_right hfirst place.width).trans (hbehind other hmem)

lemma finish_le {bound : Nat} (hposition : position ≤ bound)
    (hstops : ∀ place ∈ assign unitBits position items, place.stop ≤ bound) :
    finish unitBits position items ≤ bound := by
  induction items generalizing position with
  | nil => exact hposition
  | cons item items ih =>
    obtain ⟨hstop, hrest⟩ := List.forall_mem_cons.mp hstops
    exact ih hstop hrest

end BitPacking

namespace PackedRun

open BitPacking

variable {unit : Nat} {members : List BitItem}

/-- The region is the least one of whole units that holds the members. -/
lemma isLeast_size (hunit : 0 < unit) :
    IsLeast {bytes | Enough unit (ofMembers unit members).bits bytes}
      (ofMembers unit members).size := by
  have hbits : 0 < unit * 8 := Nat.mul_pos hunit (by decide)
  refine ⟨⟨?_, fun place hmem => ?_⟩, fun bytes henough => ?_⟩
  · exact unit_dvd_bytes unit _
  · exact (le_finish_of_mem hbits hmem).trans (size_ofMembers hunit members)
  · obtain ⟨hdvd, hstops⟩ := henough
    have hfinish := finish_le (Nat.zero_le _) hstops
    have hround : nextMultiple (finish (unit * 8) 0 members) (unit * 8) ≤ 8 * bytes := by
      refine nextMultiple_le_of_dvd hbits hfinish ?_
      rw [Nat.mul_comm unit 8]
      exact Nat.mul_dvd_mul_left 8 hdvd
    rw [ofMembers]
    dsimp only
    omega

/-- Packing succeeds, lists the members in order within their units, in the least number of units
that holds them, and without a sum beyond one unit for each member. Every other way to keep them so
that closes units puts each member at the same bit or behind it, and takes as many units or more. -/
theorem pack_least (hunit : 1 ≤ unit) (hwidths : ∀ member ∈ members, member.width ≤ unit * 8) :
    ∃ run, pack unit members = .ok run ∧ InUnits (unit * 8) members run.bits ∧
      Closing run.bits ∧ IsLeast {bytes | Enough unit run.bits bytes} run.size ∧
      (∀ n ∈ sums (unit * 8) 0 members, n ≤ members.length * (unit * 8)) ∧
      ∀ places, InUnits (unit * 8) members places → Closing places →
        List.Forall₂ BitPlace.NoLater run.bits places ∧
        ∀ bytes, Enough unit places bytes → run.size ≤ bytes := by
  have hbits : 0 < unit * 8 := Nat.mul_pos hunit (by decide)
  refine ⟨ofMembers unit members, if_neg (by omega), assign_inUnits hbits hwidths,
    assign_closing hbits 0 members, isLeast_size hunit, fun n hmem => ?_,
    fun places hplaces hclosing => ?_⟩
  · simpa using sums_le hbits hwidths (Nat.zero_le (0 * (unit * 8))) n hmem
  · have hle : List.Forall₂ BitPlace.NoLater (ofMembers unit members).bits places :=
      assign_le hbits hplaces hclosing fun _ _ => Nat.zero_le _
    exact ⟨hle, fun bytes henough => (isLeast_size hunit).2 (henough.of_noLater hle)⟩

/-- Two members that one unit could hold, and between them one that closes it. -/
def closedUnit : List BitItem := [⟨"low", 3⟩, ⟨"", 0⟩, ⟨"high", 3⟩]

theorem pack_least_closedUnit :
    pack 1 closedUnit = .ok ⟨2, 1, [⟨"low", 0, 3⟩, ⟨"", 8, 0⟩, ⟨"high", 8, 3⟩]⟩ ∧
      ∀ places, InUnits 8 closedUnit places → Closing places →
        ∀ bytes, Enough 1 places bytes → 2 ≤ bytes := by
  obtain ⟨run, hrun, -, -, -, -, hleast⟩ :=
    pack_least (by decide : 1 ≤ 1) (by decide : ∀ member ∈ closedUnit, member.width ≤ 1 * 8)
  have hpacked : pack 1 closedUnit =
      .ok ⟨2, 1, [⟨"low", 0, 3⟩, ⟨"", 8, 0⟩, ⟨"high", 8, 3⟩]⟩ := by decide
  obtain rfl := Except.ok.inj (hrun.symm.trans hpacked)
  exact ⟨hpacked, fun places hplaces hclosing => (hleast places hplaces hclosing).2⟩

/-- Where a member of width zero may stand inside a member before it, one unit is enough. -/
theorem pack_closedUnit_not_least :
    (∀ member ∈ closedUnit, member.width ≤ 1 * 8) ∧
      InUnits (1 * 8) closedUnit [⟨"low", 0, 3⟩, ⟨"", 0, 0⟩, ⟨"high", 3, 3⟩] ∧
      Enough 1 [⟨"low", 0, 3⟩, ⟨"", 0, 0⟩, ⟨"high", 3, 3⟩] 1 ∧
      pack 1 closedUnit = .ok ⟨2, 1, [⟨"low", 0, 3⟩, ⟨"", 8, 0⟩, ⟨"high", 8, 3⟩]⟩ ∧
      ¬ List.Forall₂ BitPlace.NoLater [⟨"low", 0, 3⟩, ⟨"", 8, 0⟩, ⟨"high", 8, 3⟩]
        [⟨"low", 0, 3⟩, ⟨"", 0, 0⟩, ⟨"high", 3, 3⟩] := by
  refine ⟨by decide, ⟨rfl, by decide, by decide, by decide, by decide⟩, ⟨by decide, by decide⟩,
    by decide, ?_⟩
  rintro (_ | ⟨-, _ | ⟨⟨-, hle⟩, -⟩⟩)
  exact absurd hle (by decide)

end PackedRun

end ObjectLayout
