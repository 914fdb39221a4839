import ObjectLayout.Proofs.ComparedPlacement
import ObjectLayout.Proofs.RegularPlacement
import ObjectLayout.Proofs.Variants

/-!
# Packing clamps

A clamp bounds the alignment that is granted to any part of a type. A tighter clamp rounds less at
every move of the placement, so nothing comes to lie later, and the alignment of the type is the one
before, lowered to the clamp. The parts themselves are not touched: the fields and the bases keep
their sizes.
-/
namespace ObjectLayout

/-- Two powers of two, the first of them the second one or lowered, but not below the clamp. -/
structure Lowered (clamp align' align : Nat) : Prop where
  power' : align'.isPowerOfTwo
  power : align.isPowerOfTwo
  le : align' ≤ align
  floor : min align clamp ≤ align'

namespace Lowered

variable {clamp align' align n' n : Nat}

lemma refl (h : align.isPowerOfTwo) : Lowered clamp align align :=
  ⟨h, h, le_refl align, min_le_left align clamp⟩

lemma alignRelation (clamp : Nat) : AlignRelation (Lowered clamp) where
  one := refl ⟨0, rfl⟩
  max := by
    intro a' a b' b ha hb
    have := ha.le
    have := hb.le
    have := ha.floor
    have := hb.floor
    refine ⟨isPowerOfTwo_max ha.power' hb.power', isPowerOfTwo_max ha.power hb.power, ?_, ?_⟩ <;>
      omega
  roundUp := by
    intro n' n a' a h ha
    exact h.roundUp (roundUp_le_roundUp h.1 ha.power' ha.power ha.le)

end Lowered

namespace FieldGroup

variable {site site' : Site} {extent : FieldType → Except Rejection (Nat × Nat)}
  {frontier frontier' last last' : Frontier} {placed placed' : List PlacedField}

/-- The sizes of fields do not depend on where they are placed. -/
lemma placeAll_sizes {groups : List FieldGroup}
    (h : placeAll site extent frontier groups = .ok (last, placed))
    (h' : placeAll site' extent frontier' groups = .ok (last', placed')) :
    placed'.map PlacedField.size = placed.map PlacedField.size := by
  induction groups generalizing frontier frontier' placed placed' with
  | nil =>
    cases h
    cases h'
    rfl
  | cons group groups ih =>
    obtain ⟨next, first, others, hgroup, hrest, rfl⟩ := placeAll_cons_eq_ok h
    obtain ⟨next', first', others', hgroup', hrest', rfl⟩ := placeAll_cons_eq_ok h'
    rw [List.map_append, List.map_append, ih hrest hrest']
    refine congrArg (· ++ _) ?_
    cases group with
    | plain field =>
      obtain ⟨size, natural, hextent, start, -, -, rfl⟩ := place_plain_eq_ok hgroup
      obtain ⟨size', natural', hextent', start', -, -, rfl⟩ := place_plain_eq_ok hgroup'
      obtain ⟨rfl, -⟩ := Prod.mk.inj (Except.ok.inj (hextent.symm.trans hextent'))
      rfl
    | marker field =>
      obtain ⟨-, rfl⟩ := place_marker_eq_ok hgroup
      obtain ⟨-, rfl⟩ := place_marker_eq_ok hgroup'
      rfl
    | run unit fields =>
      obtain ⟨start, -, -, rfl⟩ := place_run_eq_ok hgroup
      obtain ⟨start', -, -, rfl⟩ := place_run_eq_ok hgroup'
      rw [List.map_map, List.map_map]
      rfl

end FieldGroup

namespace Composite

variable {target : Target} {isPod isPod' : TypeId → Bool}
  {part : TypeId → Except Rejection Placed} {c c' : Composite} {placed placed' : Placed}
  {clamp : Nat}

namespace Construction

lemma base_sizes (steps : Construction target isPod part c placed) :
    placed.layout.bases.map PlacedBase.size = (steps.owned ++ steps.hoisted).map fun core =>
      if core.2.dataSize = 0 then 0 else core.2.size := by
  obtain ⟨owned, howned, hownedSizes⟩ := Draft.embedAll_sizes steps.bases
  obtain ⟨shared, hshared, hsharedSizes⟩ := Draft.embedAll_sizes steps.shared
  have hsizes := List.rel_append hownedSizes hsharedSizes
  rw [steps.bases_eq, hshared, howned, steps.opened_bases, List.nil_append]
  exact (map_eq_map_of_forall₂ hsizes fun core base h => h.symm).symm

/-- What is placed from the same parts has the same sizes. -/
theorem sizes_eq (steps : Construction target isPod part c placed)
    (steps' : Construction target isPod' part c' placed') (hbases : c'.bases = c.bases)
    (hfields : c'.fields = c.fields) :
    placed'.layout.fields.map PlacedField.size = placed.layout.fields.map PlacedField.size ∧
      placed'.layout.bases.map PlacedBase.size = placed.layout.bases.map PlacedBase.size := by
  constructor
  · have hplaced' := steps'.fields
    rw [hfields] at hplaced'
    exact FieldGroup.placeAll_sizes steps.fields hplaced'
  · obtain ⟨howned, -, hhoisted⟩ := steps.cores_eq steps' hbases
    rw [steps.base_sizes, steps'.base_sizes, howned, hhoisted]

/-- Under a clamp nothing but a forced alignment goes beyond it. -/
lemma align_le_clamp (steps : Construction target isPod part c placed)
    (hclamp : c.packing = some clamp) (hpos : 1 ≤ clamp) (hforced : c.forcedAlign = none) :
    placed.layout.align ≤ clamp := by
  have hgranted (align : Nat) : (c.site target).granted align ≤ clamp :=
    Site.granted_le_iff.mpr (Or.inr ⟨clamp, hclamp, le_refl clamp⟩)
  refine steps.align_le_iff.mpr ⟨?_, fun _ _ _ _ => hgranted _⟩
  rw [steps.core, forceAlign_align_le_iff, FieldGroup.placeAll_align_le_iff steps.fields,
    steps.based_align_le_iff]
  refine ⟨⟨⟨hpos, fun _ => hgranted _, fun _ _ _ _ => hgranted _⟩, fun _ _ _ _ => hgranted _⟩, ?_⟩
  rw [hforced]
  rintro _ ⟨⟩

end Construction

/-- An owned base takes no more bytes where its core does not. -/
lemma ownedBytes_within {R : Nat → Nat → Prop} {id : TypeId} {core' core : Core}
    (h : Core.Within R core' core) :
    AtMost (ownedBytes target isPod (id, core')) (ownedBytes target isPod (id, core)) := by
  unfold ownedBytes
  cases target.tailPadding with
  | keep => exact h.size
  | reuse =>
    dsimp only
    split
    · exact h.size
    · exact h.dataSize

/-- The type with a packing clamp in place of the one that it had. -/
def packed (c : Composite) (clamp : Nat) : Composite := { c with packing := some clamp }

/-- A tighter clamp lowers what is granted, to itself at the lowest. -/
lemma compares_packed (hwell : c.WellFormed target) (hforced : c.forcedAlign = none)
    (hpointer : target.pointerSize.isPowerOfTwo) (hclamp : clamp.isPowerOfTwo)
    (hwider : ∀ wider ∈ c.packing, clamp ≤ wider) :
    Compares (Lowered clamp) target target (c.packed clamp) c where
  bases := rfl
  fields := rfl
  introducesDispatch := rfl
  forcedAlign := rfl
  site := by
    refine ⟨fun hle hholds => Target.holds_of_le hholds hle, fun {a' a} ha => ?_⟩
    have hgranted' : ((c.packed clamp).site target).granted a' = min a' clamp := rfl
    have hsite : ∀ wider ∈ (c.site target).packing, wider.isPowerOfTwo := hwell.packing
    have hle := ha.le
    have hfloor := ha.floor
    refine ⟨?_, Site.granted_isPowerOfTwo hsite ha.power, ?_, ?_⟩ <;> rw [hgranted']
    · exact isPowerOfTwo_min ha.power' hclamp
    · unfold Site.granted
      split
      · next wider hpacking =>
        have := hwider wider hpacking
        omega
      · omega
    · have := (c.site target).granted_le a
      omega
  pointerSize := .refl _
  pointerAlign := .refl hpointer
  forced := by
    rw [hforced]
    rintro _ ⟨⟩
  groups group hmem := (FieldGroup.ofFields_valid hwell.fields group hmem).steady fun _ => .refl

lemma finalAlign_packed (hforced : c.forcedAlign = none)
    (hwider : ∀ wider ∈ c.packing, clamp ≤ wider) (required : Nat) :
    (c.packed clamp).finalAlign required = min (c.finalAlign required) clamp := by
  have hpacked : (c.packed clamp).finalAlign required = min required clamp := by
    rw [finalAlign, packed, hforced]
  rw [hpacked, finalAlign, hforced]
  cases hpacking : c.packing with
  | none => rfl
  | some wider =>
    have := hwider wider hpacking
    dsimp only
    omega

lemma WellFormed.packed (h : c.WellFormed target) (hforced : c.forcedAlign = none)
    (hclamp : clamp.isPowerOfTwo) : (c.packed clamp).WellFormed target where
  exclusive := Or.inl hforced
  forced := h.forced
  packing := by
    rintro _ ⟨⟩
    exact hclamp
  names := h.names
  fields := h.fields

end Composite

/-- A regular placement is within itself. -/
lemma Placed.Regular.within_self {target : Target} {placed : Placed} {R : Nat → Nat → Prop}
    (h : placed.Regular target) (hpointer : target.pointerSize.isPowerOfTwo)
    (hR : ∀ align : Nat, align.isPowerOfTwo → R align align) :
    Placed.Within R placed placed := by
  have hroom : AtMost placed.core.dataSize placed.core.size := by
    rw [h.core.size]
    split
    · next hempty => exact hempty ▸ .refl 0
    · exact .roundUp_self _ _
  refine ⟨⟨le_refl _, le_refl _, slot_refl _, ?_, ?_⟩, .refl _, hR _ (h.align hpointer),
    ⟨.refl _, .refl _, hroom, hR _ (h.core.align hpointer), slot_refl _⟩, rfl⟩
  · exact List.forall₂_same.mpr fun field _ => ⟨rfl, rfl, le_refl _, le_refl _⟩
  · exact List.forall₂_same.mpr fun base _ => ⟨rfl, rfl, le_refl _, le_refl _⟩

namespace TypeTable

variable {table : TypeTable} {target : Target} {id : TypeId} {c : Composite} {clamp : Nat}

/-- Under a tighter clamp the type is placed with nothing later and nothing larger. -/
theorem PlacedAs.packed_within {align : Nat} {placed : Placed}
    (h : table.PlacedAs target id (.ok placed)) (haccepted : table.Accepted target id align)
    (hpointer : target.pointerSize.isPowerOfTwo) (hc : table.get? id = some c)
    (hforced : c.forcedAlign = none) (hclamp : clamp.isPowerOfTwo)
    (hwider : ∀ wider ∈ c.packing, clamp ≤ wider) :
    ∃ placed', (table.redefine id (c.packed clamp)).PlacedAs target id (.ok placed') ∧
      Placed.Within (Lowered clamp) placed' placed ∧ placed'.layout.align ≤ clamp ∧
      placed'.layout.fields.map PlacedField.size = placed.layout.fields.map PlacedField.size ∧
      placed'.layout.bases.map PlacedBase.size = placed.layout.bases.map PlacedBase.size := by
  have hwell := haccepted.wellFormed hc
  obtain ⟨part, parts, hplaced, hvariant⟩ :=
    h.redefine haccepted.acyclic hc (List.Subset.refl (c.packed clamp).references)
  have hself : ∀ other, table.Below id other →
      Carries (Placed.Within (Lowered clamp)) (part other) (part other) := by
    intro other hbelow p hp
    obtain ⟨align', haccepted'⟩ := haccepted.reaches hbelow.reaches
    exact ⟨p, hp, ((hp ▸ parts other hbelow).regular haccepted').within_self
      hpointer fun _ => .refl⟩
  have hbelow : ∀ other ∈ c.references, table.Below id other :=
    fun other hmem => ((refers_iff hc).mpr hmem).below
  obtain ⟨placed', hplaced', hwithin⟩ := Composite.place_within (Lowered.alignRelation clamp)
    (Composite.compares_packed hwell hforced hpointer hclamp hwider)
    (fun other hmem => hself other (hbelow other hmem))
    (fun other hmem p hp shared hshared => hself shared ((hbelow other hmem).trans
      (PlacedAs.below_of_mem_shared (hp ▸ parts other (hbelow other hmem)) hshared)))
    (fun base _ core' core hcore => Composite.ownedBytes_within hcore) placed hplaced.symm
  obtain ⟨steps⟩ := Composite.exists_construction hplaced.symm
  obtain ⟨steps'⟩ := Composite.exists_construction hplaced'
  rw [hplaced'] at hvariant
  exact ⟨placed', hvariant, hwithin,
    steps'.align_le_clamp rfl (Nat.pos_of_isPowerOfTwo hclamp) hforced,
    steps.sizes_eq steps' rfl rfl⟩

/-- A record under a loose clamp: its own slot, an owned and a shared base, and a run of bit-fields
that ends at a marker. -/
def looseRecord : Composite :=
  { name := "Record", introducesDispatch := true, packing := some 8
    bases := [{ type := ⟨0⟩ }, { type := ⟨1⟩, sharing := .shared }]
    fields := [{ name := "kind", type := .char },
      { name := "low", type := .int, bitWidth := some 20 },
      { name := "high", type := .int, bitWidth := some 17 },
      { name := "", type := .int, bitWidth := some 0 },
      { name := "mark", type := .char }, { name := "number", type := .double }] }

def looseRecords : TypeTable :=
  { entries := #[
      ⟨"Counted", some
        { name := "Counted"
          fields := [{ name := "count", type := .longLong }, { name := "flag", type := .char }] }⟩,
      ⟨"Named", some { name := "Named", fields := [{ name := "name", type := .pointer }] }⟩,
      ⟨"Record", some looseRecord⟩] }

end TypeTable

end ObjectLayout
