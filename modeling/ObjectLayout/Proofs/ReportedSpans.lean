import ObjectLayout.Proofs.RegularPlacement

/-!
# The spans of a layout

A layout reports a span of bytes for every base and every field. In the order in which they are
placed, a span begins where the room taken before it ends, or later. The one exception are
bit-fields of one run, which report the same storage unit as long as it has bits left. The room that
an owned base takes may be less than its span: it is what the policy for tail padding leaves it.
-/
namespace ObjectLayout

/-- A span that a layout reports: that of a base, or that of the field at a position. -/
inductive Span where
  | base (placed : PlacedBase)
  | field (position : Nat) (placed : PlacedField)
  deriving DecidableEq

/-- Between two positions all fields are bit-fields that hold data, in units of one size. -/
def OneRun (fields : List Field) (first last unit : Nat) : Prop :=
  ∀ i, first ≤ i → i ≤ last → ∃ field width, fields[i]? = some field ∧
    field.bitWidth = some (width + 1) ∧ field.storageUnit = unit

namespace Span

def start : Span → Nat
  | .base placed => placed.offset
  | .field _ placed => placed.offset

def size : Span → Nat
  | .base placed => placed.size
  | .field _ placed => placed.size

def stop (span : Span) : Nat := span.start + span.size

/-- Two bit-fields of one run that report the same storage unit, the first of them first. -/
def SameUnit (fields : List Field) (a b : Span) : Prop :=
  ∃ i j one other unit, a = .field i one ∧ b = .field j other ∧ OneRun fields i j unit ∧
    one.offset = other.offset ∧ one.size = unit ∧ other.size = unit

/-- The spans of fields that are listed from a position on. -/
def numbered (position : Nat) (fields : List PlacedField) : List Span :=
  (fields.zipIdx position).map fun entry => .field entry.2 entry.1

lemma numbered_append (position : Nat) (fields others : List PlacedField) :
    numbered position (fields ++ others) =
      numbered position fields ++ numbered (position + fields.length) others := by
  rw [numbered, List.zipIdx_append, List.map_append]
  rfl

lemma mem_numbered {position : Nat} {fields : List PlacedField} {span : Span}
    (h : span ∈ numbered position fields) :
    ∃ i, ∃ hi : i < fields.length, span = .field (position + i) fields[i] := by
  obtain ⟨i, hi, rfl⟩ := List.getElem_of_mem h
  rw [numbered, List.length_map, List.length_zipIdx] at hi
  exact ⟨i, hi, by simp [numbered]⟩

/-- Spans between two offsets, each with its room before the next one. -/
structure InOrder (fields : List Field) (room : Span → Nat) (low high : Nat)
    (spans : List Span) : Prop where
  within : ∀ span ∈ spans, low ≤ span.start ∧ span.start + room span ≤ high
  order : spans.Pairwise fun a b => a.start + room a ≤ b.start ∨ SameUnit fields a b

namespace InOrder

variable {fields : List Field} {room : Span → Nat} {low mid high : Nat} {spans others : List Span}

lemma nil (fields : List Field) (room : Span → Nat) (low high : Nat) :
    InOrder fields room low high [] := ⟨by simp, .nil⟩

lemma singleton {span : Span} (hlow : low ≤ span.start) (hhigh : span.start + room span ≤ high) :
    InOrder fields room low high [span] :=
  ⟨by simpa using ⟨hlow, hhigh⟩, List.pairwise_singleton _ _⟩

/-- What lies before `mid` and what lies behind it are in order. -/
lemma append (h : InOrder fields room low mid spans) (h' : InOrder fields room mid high others)
    (hlow : low ≤ mid) (hhigh : mid ≤ high) : InOrder fields room low high (spans ++ others) := by
  refine ⟨?_, List.pairwise_append.mpr ⟨h.order, h'.order, ?_⟩⟩
  · intro span hmem
    rcases List.mem_append.mp hmem with hmem | hmem
    · have := h.within span hmem
      omega
    · have := h'.within span hmem
      omega
  · intro span hmem other hmem'
    have := h.within span hmem
    have := h'.within other hmem'
    exact Or.inl (by omega)

end InOrder

end Span

/-- The spans that a layout reports, in the order in which they are placed. -/
def Layout.spans (layout : Layout) : List Span :=
  layout.ownedBases.map .base ++ Span.numbered 0 layout.fields ++ layout.sharedBases.map .base

namespace BitPlace

/-- The member that lies here. -/
def item (place : BitPlace) : BitItem := ⟨place.name, place.width⟩

/-- The position behind the last bit. -/
def stop (place : BitPlace) : Nat := place.bitOffset + place.width

end BitPlace

namespace BitPacking

variable {unitBits position : Nat} {items : List BitItem}

lemma le_bitOffset (hunit : 0 < unitBits) {bit : BitPlace}
    (h : bit ∈ assign unitBits position items) : position ≤ bit.bitOffset := by
  induction items generalizing position with
  | nil => cases h
  | cons item items ih =>
    have hstart := le_start hunit position item.width
    rw [assign] at h
    rcases List.mem_cons.mp h with rfl | hmem
    · exact hstart
    · have := ih hmem
      omega

/-- The position never falls behind the members that have their place. -/
lemma assign_stop_le (hunit : 0 < unitBits) (position : Nat) (items : List BitItem) :
    (assign unitBits position items).Pairwise fun a b => a.stop ≤ b.bitOffset := by
  induction items generalizing position with
  | nil => exact .nil
  | cons item items ih =>
    rw [assign]
    exact List.pairwise_cons.mpr ⟨fun bit hmem => le_bitOffset hunit hmem, ih _⟩

lemma assign_sorted (hunit : 0 < unitBits) (position : Nat) (items : List BitItem) :
    (assign unitBits position items).Pairwise fun a b => a.bitOffset ≤ b.bitOffset :=
  (assign_stop_le hunit position items).imp fun hle => (Nat.le_add_right _ _).trans hle

lemma map_item_assign (unitBits position : Nat) (items : List BitItem) :
    (assign unitBits position items).map BitPlace.item = items := by
  induction items generalizing position with
  | nil => rfl
  | cons item items ih => simp [assign, BitPlace.item, ih]

end BitPacking

namespace PackedRun

variable {unit : Nat} {items : List BitItem} {bit : BitPlace}

/-- The unit of a bit lies within the region of its run. -/
lemma unit_le_size (hunit : 0 < unit) (h : bit ∈ (ofMembers unit items).bits)
    (hwidth : 0 < bit.width) :
    bit.bitOffset / (unit * 8) * unit + unit ≤ (ofMembers unit items).size := by
  have hbits : 0 < unit * 8 := Nat.mul_pos hunit (by decide)
  have hfinish := BitPacking.le_finish_of_mem hbits h
  have hround := le_nextMultiple hbits (BitPacking.finish (unit * 8) 0 items)
  obtain ⟨units, hunits⟩ :
      unit * 8 ∣ nextMultiple (BitPacking.finish (unit * 8) 0 items) (unit * 8) :=
    dvd_nextMultiple _ _
  have hsize : (ofMembers unit items).size = units * unit := by
    rw [ofMembers, hunits, Nat.mul_right_comm, Nat.mul_div_cancel _ (by decide : 0 < 8),
      Nat.mul_comm]
  have hindex : bit.bitOffset / (unit * 8) < units :=
    Nat.div_lt_of_lt_mul (by omega)
  rw [hsize, ← Nat.succ_mul]
  exact Nat.mul_le_mul_right unit hindex

end PackedRun

namespace FieldGroup

open ObjectLayout.Span

variable {target : Target} {site : Site} {extent : FieldType → Except Rejection (Nat × Nat)}
  {frontier next last : Frontier} {placed : List PlacedField} {groups : List FieldGroup}
  {fields before : List Field} {room : Span → Nat}

/-- Of two bits of a run the later one lies in the same unit or in a later one. -/
lemma placeBit_order {a b : BitPlace} (unit start : Nat)
    (h : a.bitOffset ≤ b.bitOffset) :
    (placeBit start unit a).offset + unit ≤ (placeBit start unit b).offset ∨
      (placeBit start unit a).offset = (placeBit start unit b).offset := by
  have hindex : a.bitOffset / (unit * 8) ≤ b.bitOffset / (unit * 8) := Nat.div_le_div_right h
  rcases Nat.eq_or_lt_of_le hindex with heq | hlt
  · exact Or.inr (by simp only [placeBit, heq])
  · have hunits := Nat.mul_le_mul_right unit (Nat.succ_le_of_lt hlt)
    rw [Nat.succ_mul] at hunits
    dsimp only [placeBit]
    omega

lemma length_bits (unit : Nat) (members : List Field) :
    (PackedRun.ofMembers unit (bitItems members)).bits.length = members.length := by
  rw [PackedRun.ofMembers, BitPacking.length_assign, bitItems, List.length_map]

/-- The unit of every member of a run ends within the region of the run. -/
lemma placeBit_stop_le {unit : Nat} {members : List Field} {bit : BitPlace} (hunit : 0 < unit)
    (start : Nat) (hmembers : ∀ field ∈ members, field.storageUnit = unit ∧
      (∃ width, field.bitWidth = some (width + 1)) ∧ field.WellFormed target)
    (hmem : bit ∈ (PackedRun.ofMembers unit (bitItems members)).bits) :
    (placeBit start unit bit).offset + unit ≤
      start + (PackedRun.ofMembers unit (bitItems members)).size := by
  have hitem := List.mem_map_of_mem (f := BitPlace.item) hmem
  rw [PackedRun.ofMembers, BitPacking.map_item_assign] at hitem
  obtain ⟨field, hfield, heq⟩ := List.mem_map.mp hitem
  obtain ⟨-, ⟨width, hbits⟩, -⟩ := hmembers field hfield
  have hwidth : width + 1 = bit.width := by
    simpa [hbits, BitPlace.item] using congrArg BitItem.width heq
  have hsize := PackedRun.unit_le_size hunit hmem (by omega)
  dsimp only [placeBit]
  omega

/-- The fields of a run make up one run wherever they are listed. -/
lemma run_oneRun {unit : Nat} {members rest : List Field}
    (hfields : fields = before ++ (members ++ rest)) {i j : Nat} (hj : j < members.length)
    (hmembers : ∀ field ∈ members, field.storageUnit = unit ∧
      (∃ width, field.bitWidth = some (width + 1)) ∧ field.WellFormed target) :
    OneRun fields (before.length + i) (before.length + j) unit := by
  intro k hfirst hlast
  obtain ⟨n, rfl⟩ := Nat.exists_eq_add_of_le (Nat.le_of_add_right_le hfirst)
  have hn : n < members.length := by omega
  obtain ⟨hsame, ⟨width, hwidth⟩, -⟩ := hmembers _ (List.getElem_mem hn)
  refine ⟨members[n], width, ?_, hwidth, hsame⟩
  rw [hfields, List.getElem?_append_right (Nat.le_add_right _ _), Nat.add_sub_cancel_left,
    List.getElem?_append_left hn, List.getElem?_eq_getElem hn]

/-- The members of a run keep to its region, and move on by whole units. -/
lemma run_inOrder {unit start : Nat} {members rest : List Field}
    (hfields : fields = before ++ (members ++ rest)) (hunit : 0 < unit)
    (hmembers : ∀ field ∈ members, field.storageUnit = unit ∧
      (∃ width, field.bitWidth = some (width + 1)) ∧ field.WellFormed target)
    (hroom : ∀ position field, room (.field position field) = field.size) :
    InOrder fields room start (start + (PackedRun.ofMembers unit (bitItems members)).size)
      (numbered before.length
        ((PackedRun.ofMembers unit (bitItems members)).bits.map (placeBit start unit))) := by
  constructor
  case within =>
    intro span hmem
    obtain ⟨i, hi, rfl⟩ := mem_numbered hmem
    rw [hroom, List.getElem_map]
    rw [List.length_map] at hi
    have hstop := placeBit_stop_le hunit start hmembers (List.getElem_mem hi)
    exact ⟨by dsimp only [Span.start, placeBit]; omega, hstop⟩
  case order =>
    rw [List.pairwise_iff_getElem]
    intro i j hi hj hlt
    simp only [numbered, List.length_map, List.length_zipIdx] at hi hj
    have hsorted := List.pairwise_iff_getElem.mp
      (BitPacking.assign_sorted (Nat.mul_pos hunit (by decide)) 0 (bitItems members)) i j hi hj hlt
    simp only [numbered, List.getElem_map, List.getElem_zipIdx, hroom]
    refine (placeBit_order unit start hsorted).imp_right fun hsame => ?_
    have hlast : j < members.length := length_bits unit members ▸ hj
    exact ⟨_, _, _, _, unit, rfl, rfl, run_oneRun hfields hlast hmembers, hsame, rfl, rfl⟩

lemma length_place {group : FieldGroup}
    (h : group.place site extent frontier = .ok (next, placed)) :
    placed.length = group.fields.length := by
  cases group with
  | plain field =>
    obtain ⟨size, natural, -, start, -, -, rfl⟩ := place_plain_eq_ok h
    rfl
  | marker field =>
    obtain ⟨-, rfl⟩ := place_marker_eq_ok h
    rfl
  | run unit members =>
    obtain ⟨start, -, -, rfl⟩ := place_run_eq_ok h
    rw [List.length_map, length_bits]
    rfl

/-- The fields of one group lie between the frontiers before and after it. -/
lemma place_inOrder {group : FieldGroup} {rest : List Field}
    (hfields : fields = before ++ (group.fields ++ rest)) (hvalid : group.Valid target)
    (hroom : ∀ position field, room (.field position field) = field.size)
    (h : group.place site extent frontier = .ok (next, placed)) :
    InOrder fields room frontier.offset next.offset (numbered before.length placed) := by
  cases group with
  | plain field =>
    obtain ⟨size, natural, hextent, start, hstart, rfl, rfl⟩ := place_plain_eq_ok h
    exact .singleton (hstart ▸ le_roundUp _ _) (by rw [hroom]; exact le_refl _)
  | marker field =>
    obtain ⟨rfl, rfl⟩ := place_marker_eq_ok h
    exact .singleton (le_roundUp _ _) (by rw [hroom]; exact le_refl _)
  | run unit members =>
    obtain ⟨start, hstart, rfl, rfl⟩ := place_run_eq_ok h
    have hle : frontier.offset ≤ start := hstart ▸ le_roundUp _ _
    have hrun : InOrder fields room start _ _ := run_inOrder hfields hvalid.1 hvalid.2.2 hroom
    exact ⟨fun span hmem => ⟨hle.trans (hrun.within span hmem).1,
      (hrun.within span hmem).2⟩, hrun.order⟩

/-- The fields of all groups lie between the first frontier and the last one. -/
theorem placeAll_inOrder (hfields : fields = before ++ groups.flatMap FieldGroup.fields)
    (hvalid : ∀ group ∈ groups, group.Valid target)
    (hroom : ∀ position field, room (.field position field) = field.size)
    (h : placeAll site extent frontier groups = .ok (last, placed)) :
    InOrder fields room frontier.offset last.offset (numbered before.length placed) := by
  induction groups generalizing frontier placed before with
  | nil =>
    cases h
    exact .nil fields room _ _
  | cons group groups ih =>
    obtain ⟨next, first, others, hgroup, hrest, rfl⟩ := placeAll_cons_eq_ok h
    obtain ⟨hvalidHead, hvalidTail⟩ := List.forall_mem_cons.mp hvalid
    rw [List.flatMap_cons] at hfields
    have hfirst := place_inOrder hfields hvalidHead hroom hgroup
    rw [← List.append_assoc] at hfields
    have hothers := ih hfields hvalidTail hrest
    rw [List.length_append, ← length_place hgroup] at hothers
    rw [numbered_append]
    exact hfirst.append hothers (place_offset_le hvalidHead hgroup).1
      (placeAll_offset_le hvalidTail hrest).1

end FieldGroup

namespace Draft

variable {target : Target} {site : Site} {draft last : Draft} {sharing : Sharing}
  {bytes : TypeId × Core → Nat} {cores : List (TypeId × Core)} {room : Span → Nat}

/-- The bases lie between the frontiers before and after them, each with the bytes it takes. -/
lemma embedAll_inOrder (fields : List Field)
    (h : draft.embedAll site sharing bytes cores = .ok last)
    (hcores : ∀ core ∈ cores, core.2.Regular target)
    (hroom : ∀ core ∈ cores, ∀ start,
      room (.base ⟨core.1, start, core.2.size, sharing⟩) = bytes core)
    (hempty : ∀ core ∈ cores, core.2.dataSize = 0 → bytes core = 0) :
    ∃ bases, last.bases = draft.bases ++ bases ∧ Span.InOrder fields room draft.frontier.offset
      last.frontier.offset (bases.map .base) := by
  induction cores generalizing draft with
  | nil =>
    cases h
    exact ⟨[], (List.append_nil _).symm, .nil fields room _ _⟩
  | cons core cores ih =>
    obtain ⟨next, hnext, h⟩ := foldlM_cons_eq_ok.mp h
    obtain ⟨hcore, hcores⟩ := List.forall_mem_cons.mp hcores
    obtain ⟨hroomHead, hroom⟩ := List.forall_mem_cons.mp hroom
    obtain ⟨hemptyHead, hempty⟩ := List.forall_mem_cons.mp hempty
    obtain ⟨start, hembeds, hlisted⟩ := embed_regular hnext hcore
    obtain ⟨bases, hbases, hrest⟩ := ih h hcores hroom hempty
    have hwithin : draft.frontier.offset ≤ start ∧
        start + bytes core = next.frontier.offset := by
      rcases Nat.eq_zero_or_pos core.2.dataSize with hzero | hfilled
      · obtain ⟨hstart, hoffset⟩ := hembeds.empty hzero
        have := hemptyHead hzero
        omega
      · obtain ⟨hstart, hoffset⟩ := hembeds.filled hfilled
        have := le_roundUp draft.frontier.offset (site.granted core.2.align)
        omega
    have hhead : Span.InOrder fields room draft.frontier.offset next.frontier.offset
        [.base ⟨core.1, start, core.2.size, sharing⟩] :=
      .singleton hwithin.1 (by rw [hroomHead start]; exact hwithin.2.le)
    exact ⟨_ :: bases, by rw [hbases, hlisted, List.append_assoc]; rfl,
      hhead.append hrest hembeds.offset_le (embedAll_offset_le h)⟩

end Draft

namespace Composite

variable {target : Target} {isPod : TypeId → Bool} {part : TypeId → Except Rejection Placed}
  {c : Composite} {placed : Placed}

/-- The bytes taken by what a span stands for: by an owned base those that the policy for tail
padding leaves it. -/
def room (target : Target) (isPod : TypeId → Bool) (part : TypeId → Except Rejection Placed) :
    Span → Nat
  | .field _ field => field.size
  | .base base =>
    match base.sharing, part base.type with
    | .owned, .ok p => ownedBytes target isPod (base.type, p.core)
    | _, _ => base.size

lemma ownedBytes_of_empty {base : TypeId × Core} (h : base.2.Regular target)
    (hempty : base.2.dataSize = 0) : ownedBytes target isPod base = 0 := by
  have hsize : base.2.size = 0 := by rw [h.size, if_pos hempty]
  unfold ownedBytes
  cases target.tailPadding with
  | keep => exact hsize
  | reuse =>
    dsimp only
    split
    · exact hsize
    · exact hempty

namespace Construction

variable {steps : Construction target isPod part c placed}

/-- Owned bases, fields and shared bases follow one another behind the slot. -/
theorem PartsRegular.spans_inOrder (h : steps.PartsRegular) (hwell : c.WellFormed target) :
    Span.InOrder c.fields (room target isPod part) steps.opened.frontier.offset
      placed.layout.dataSize placed.layout.spans := by
  have hordered := h.ordered hwell
  have hroomOwned : ∀ core ∈ steps.owned, ∀ start,
      room target isPod part (.base ⟨core.1, start, core.2.size, .owned⟩) =
        ownedBytes target isPod core :=
    steps.forall_owned fun base _ p hp start => by simp only [room, hp]
  have hroomShared : ∀ core ∈ steps.hoisted, ∀ start,
      room target isPod part (.base ⟨core.1, start, core.2.size, .shared⟩) = core.2.size :=
    fun _ _ _ => rfl
  have hroomFields : ∀ position field,
      room target isPod part (.field position field) = field.size := fun _ _ => rfl
  have hlisted : c.fields = [] ++ (FieldGroup.ofFields c.fields).flatMap FieldGroup.fields :=
    (FieldGroup.flatMap_fields_ofFields c.fields).symm
  obtain ⟨owned, howned, hownedOrder⟩ := Draft.embedAll_inOrder c.fields steps.bases
    h.owned hroomOwned fun core hmem => ownedBytes_of_empty (h.owned core hmem)
  obtain ⟨hoisted, hhoisted, hhoistedOrder⟩ := Draft.embedAll_inOrder c.fields steps.shared
    h.hoisted hroomShared fun core hmem hempty => by
      rw [(h.hoisted core hmem).size, if_pos hempty]
  have hfields := FieldGroup.placeAll_inOrder hlisted (FieldGroup.ofFields_valid hwell.fields)
    hroomFields steps.fields
  rw [steps.opened_bases, List.nil_append, ← steps.bases_split.1] at howned
  have hshares : placed.layout.sharedBases = hoisted :=
    List.append_cancel_left (steps.bases_split.2.1.symm.trans hhoisted)
  have hcomplete := hordered.complete.offset
  rw [forceAlign_offset] at hcomplete hhoistedOrder
  rw [Layout.spans, howned, hshares, steps.dataSize_eq]
  exact (hownedOrder.append hfields hordered.based.offset hordered.fields.offset).append
    hhoistedOrder (hordered.based.offset.trans hordered.fields.offset) hcomplete

end Construction

end Composite

end ObjectLayout
