import ObjectLayout.Proofs.PlacementWalk

/-!
# The data of an object

A laid-out type expands into ranges of bits: the dispatch slot that it opens itself, scalars,
pointers and bit-fields, the whole of every nested member, and the core of every base, each moved to
where the layout puts it. Bases overlap as the layout reports them, since one may begin in the tail
padding of another; their data does not.
-/
namespace ObjectLayout

/-- The bits from `start` up to, but not including, `stop`. -/
structure BitRange where
  start : Nat
  stop : Nat
  deriving DecidableEq

namespace BitRange

def ofBytes (offset size : Nat) : BitRange := ⟨8 * offset, 8 * (offset + size)⟩

/-- The range moved by a number of bytes. -/
def shift (bytes : Nat) (range : BitRange) : BitRange :=
  ⟨8 * bytes + range.start, 8 * bytes + range.stop⟩

/-- One of the ranges ends before the other begins. -/
def Apart (a b : BitRange) : Prop := a.stop ≤ b.start ∨ b.stop ≤ a.start

/-- Ranges apart from one another, none of them empty, between two bits. -/
structure Packed (low high : Nat) (ranges : List BitRange) : Prop where
  apart : ranges.Pairwise Apart
  within : ∀ range ∈ ranges, low ≤ range.start ∧ range.start < range.stop ∧ range.stop ≤ high

namespace Packed

variable {low mid high : Nat} {ranges others : List BitRange}

lemma nil (low high : Nat) : Packed low high [] := ⟨.nil, by simp⟩

lemma singleton {range : BitRange} (hlow : low ≤ range.start) (hrange : range.start < range.stop)
    (hhigh : range.stop ≤ high) : Packed low high [range] := by
  refine ⟨List.pairwise_singleton _ _, fun other hmem => ?_⟩
  obtain rfl := List.mem_singleton.mp hmem
  exact ⟨hlow, hrange, hhigh⟩

lemma mono {low' high' : Nat} (h : Packed low high ranges) (hlow : low' ≤ low)
    (hhigh : high ≤ high') : Packed low' high' ranges := by
  refine ⟨h.apart, fun range hmem => ?_⟩
  have := h.within range hmem
  omega

/-- No data fits between two equal bits. -/
lemma eq_nil (h : Packed low low ranges) : ranges = [] := by
  refine List.eq_nil_iff_forall_not_mem.mpr fun range hmem => ?_
  have := h.within range hmem
  omega

/-- What ends at `mid` and what begins there are apart. -/
lemma append (h : Packed low mid ranges) (h' : Packed mid high others) (hlow : low ≤ mid)
    (hhigh : mid ≤ high) : Packed low high (ranges ++ others) := by
  refine ⟨List.pairwise_append.mpr ⟨h.apart, h'.apart, ?_⟩, ?_⟩
  · intro range hmem other hmem'
    have := h.within range hmem
    have := h'.within other hmem'
    exact Or.inl (by omega)
  · intro range hmem
    rcases List.mem_append.mp hmem with hmem | hmem
    · have := h.within range hmem
      omega
    · have := h'.within range hmem
      omega

lemma shift (h : Packed low high ranges) (bytes : Nat) :
    Packed (8 * bytes + low) (8 * bytes + high) (ranges.map (.shift bytes)) := by
  refine ⟨List.pairwise_map.mpr (h.apart.imp ?_), ?_⟩
  · intro a b hab
    rcases hab with hab | hab
    · exact Or.inl (Nat.add_le_add_left hab _)
    · exact Or.inr (Nat.add_le_add_left hab _)
  · intro range hmem
    obtain ⟨inner, hinner, rfl⟩ := List.mem_map.mp hmem
    have := h.within inner hinner
    simp only [BitRange.shift]
    omega

end Packed

end BitRange

/-- The data of a type: of its core, which it lends as a base, and of a complete object. -/
structure Expansion where
  /-- The core has a dispatch slot, its own or that of an owned base. -/
  slot : Bool
  core : List BitRange
  complete : List BitRange
  deriving DecidableEq, Inhabited

/-- The data of a placed field. A marker has none. -/
def Field.ranges (part : TypeId → Expansion) (field : Field) (placed : PlacedField) :
    List BitRange :=
  match field.type, placed.bits with
  | .composite id, _ => (part id).complete.map (.shift placed.offset)
  | _, none => [.ofBytes placed.offset placed.size]
  | _, some span =>
    let first := 8 * placed.offset + span.offset
    if span.width = 0 then [] else [⟨first, first + span.width⟩]

lemma Field.ranges_congr {part part' : TypeId → Expansion} {field : Field} {placed : PlacedField}
    (h : ∀ id, field.type = .composite id → part id = part' id) :
    field.ranges part placed = field.ranges part' placed := by
  unfold Field.ranges
  cases htype : field.type with
  | composite id =>
    dsimp only
    rw [h id htype]
  | _ => cases placed.bits <;> rfl

/-- The data of placed fields, each with its description. -/
def PlacedField.ranges (part : TypeId → Expansion) (fields : List Field)
    (placed : List PlacedField) : List BitRange :=
  (fields.zip placed).flatMap fun (field, placed) => field.ranges part placed

@[simp] lemma PlacedField.ranges_singleton (part : TypeId → Expansion) (field : Field)
    (placed : PlacedField) :
    PlacedField.ranges part [field] [placed] = field.ranges part placed := by
  simp [PlacedField.ranges]

/-- The data of placed bases. -/
def PlacedBase.ranges (part : TypeId → Expansion) (bases : List PlacedBase) : List BitRange :=
  bases.flatMap fun base => (part base.type).core.map (.shift base.offset)

/-- The data of a laid-out type, given that of the types below. -/
def Composite.expand (target : Target) (part : TypeId → Expansion) (c : Composite)
    (layout : Layout) : Expansion :=
  let inherited := c.ownedBases.any fun base => (part base.type).slot
  let slot := if c.introducesDispatch && !inherited then
    layout.dispatch.toList.map (BitRange.ofBytes · target.pointerSize) else []
  let core := slot ++ PlacedBase.ranges part layout.ownedBases
    ++ PlacedField.ranges part c.fields layout.fields
  { slot := c.introducesDispatch || inherited
    core := core
    complete := core ++ PlacedBase.ranges part layout.sharedBases }

/-- The place is that of the field and gives a scalar, a pointer or a bit-field the room that it
declares. -/
def PlacedField.Covers (target : Target) (field : Field) (placed : PlacedField) : Prop :=
  placed.name = field.name ∧ placed.bits.map BitSpan.width = field.bitWidth ∧
    (field.bitWidth = none →
      (∀ size align, field.type = .scalar size align → placed.size = size) ∧
        (field.type = .pointer → placed.size = target.pointerSize))

/-- The layout has a place for every field and for every owned base, in order. -/
structure Layout.Covers (target : Target) (c : Composite) (layout : Layout) : Prop where
  fields : List.Forall₂ (PlacedField.Covers target) c.fields layout.fields
  bases : layout.ownedBases.map PlacedBase.type = c.ownedBases.map Base.type

namespace TypeTable

/-- The data of a type, by recursion over the types below it and their layouts. -/
inductive ExpandsTo (table : TypeTable) (target : Target) : TypeId → Expansion → Prop
  | intro {id : TypeId} {c : Composite} {layout : Layout} (part : TypeId → Expansion)
      (defined : table.get? id = some c) (laidOut : table.layout target id = .ok layout)
      (covers : layout.Covers target c)
      (parts : ∀ other, table.Below id other → table.ExpandsTo target other (part other)) :
      table.ExpandsTo target id (c.expand target part layout)

end TypeTable

end ObjectLayout
