import Mathlib.Order.Bounds.Basic
import ObjectLayout.Proofs.InheritedSlots
import ObjectLayout.Proofs.LeastPacking

/-!
# The end of the data

Where tail padding is kept, every part that takes bytes moves the frontier to its own end, and a
base without data leaves the frontier where it is. So the data of a layout ends with a field, a base
or the slot that the type opens, whichever ends last. A marker takes no bytes, but it moves the
frontier, too: where one stands behind everything else, it is the end of the data.
-/
namespace ObjectLayout

lemma foldl_max_mem (l : List Nat) (a : Nat) : l.foldl max a = a ∨ l.foldl max a ∈ l := by
  induction l generalizing a with
  | nil => exact Or.inl rfl
  | cons x l ih =>
    rcases ih (max a x) with hsame | hmem
    · rcases max_choice a x with hmax | hmax
      · exact Or.inl (by rw [List.foldl_cons, hsame, hmax])
      · exact Or.inr (by rw [List.foldl_cons, hsame, hmax]; exact List.mem_cons_self)
    · exact Or.inr (List.mem_cons_of_mem x hmem)

/-- Folding with the maximum gives the greatest of the numbers and of the first one. -/
lemma isGreatest_foldl_max (l : List Nat) (a : Nat) :
    IsGreatest {n | n = a ∨ n ∈ l} (l.foldl max a) := by
  obtain ⟨ha, hl⟩ := foldl_max_le_iff.mp (le_refl (l.foldl max a))
  refine ⟨foldl_max_mem l a, ?_⟩
  rintro n (rfl | hmem)
  · exact ha
  · exact hl n hmem

/-- The byte behind a field. -/
def PlacedField.stop (field : PlacedField) : Nat := field.offset + field.size

/-- The byte behind a base. -/
def PlacedBase.stop (base : PlacedBase) : Nat := base.offset + base.size

/-- The bytes behind the bases that take any. -/
def PlacedBase.stops (bases : List PlacedBase) : List Nat :=
  (bases.filter fun base => 0 < base.size).map PlacedBase.stop

namespace BitPacking

variable {unitBits position : Nat} {items : List BitItem}

/-- Packing ends with a member. -/
lemma exists_stop_eq_finish (hitems : items ≠ []) :
    ∃ bit ∈ assign unitBits position items, bit.stop = finish unitBits position items := by
  induction items generalizing position with
  | nil => exact absurd rfl hitems
  | cons item items ih =>
    rw [assign, finish]
    by_cases hlast : items = []
    · subst hlast
      exact ⟨_, List.mem_cons_self, rfl⟩
    · obtain ⟨bit, hmem, hstop⟩ := @ih (start unitBits position item.width + item.width) hlast
      exact ⟨bit, List.mem_cons_of_mem _ hmem, hstop⟩

end BitPacking

/-- The region of a run ends with the unit of one of its members. -/
lemma PackedRun.exists_unit_eq_size {unit : Nat} {items : List BitItem} (hunit : 0 < unit)
    (hitems : items ≠ []) (hwidths : ∀ item ∈ items, 0 < item.width ∧ item.width ≤ unit * 8) :
    ∃ bit ∈ (ofMembers unit items).bits,
      bit.bitOffset / (unit * 8) * unit + unit = (ofMembers unit items).size := by
  obtain ⟨bit, hmem, hstop⟩ := @BitPacking.exists_stop_eq_finish (unit * 8) 0 _ hitems
  have hitem := List.mem_map_of_mem (f := BitPlace.item) hmem
  rw [BitPacking.map_item_assign] at hitem
  obtain ⟨hpos, hwidth⟩ : 0 < bit.width ∧ bit.width ≤ unit * 8 := hwidths bit.item hitem
  refine ⟨bit, hmem, Nat.le_antisymm (unit_le_size hunit hmem hpos) ?_⟩
  -- Packing ends within the unit of the last member, so the units taken end with this one.
  obtain ⟨taken, htaken⟩ := BitPacking.exists_start_of_mem_assign hmem
  have hfits := BitPacking.start_mod_add_le taken hwidth
  rw [← htaken] at hfits
  have hdiv := Nat.div_add_mod' bit.bitOffset (unit * 8)
  have hfinish : BitPacking.finish (unit * 8) 0 items ≤
      (bit.bitOffset / (unit * 8) + 1) * (unit * 8) := by
    rw [← hstop, BitPlace.stop, Nat.add_mul, Nat.one_mul]
    omega
  have hround := nextMultiple_le_of_dvd (Nat.mul_pos hunit (by decide)) hfinish
    (Nat.dvd_mul_left (unit * 8) _)
  rw [← eight_mul_bytes] at hround
  have hbytes : (bit.bitOffset / (unit * 8) + 1) * (unit * 8) =
      8 * (bit.bitOffset / (unit * 8) * unit + unit) := by ring
  rw [hbytes] at hround
  exact Nat.le_of_mul_le_mul_left hround (by decide)

namespace FieldGroup

variable {target : Target} {site : Site} {extent : FieldType → Except Rejection (Nat × Nat)}
  {frontier next last : Frontier} {placed : List PlacedField}

/-- The region of a run of fields ends with the unit of one of them. -/
lemma Valid.exists_unit_eq_size {unit : Nat} {members : List Field}
    (h : (FieldGroup.run unit members).Valid target) :
    ∃ bit ∈ (PackedRun.ofMembers unit (bitItems members)).bits,
      bit.bitOffset / (unit * 8) * unit + unit =
        (PackedRun.ofMembers unit (bitItems members)).size :=
  PackedRun.exists_unit_eq_size h.1 (fun hnil => h.2.1 (List.map_eq_nil_iff.mp hnil))
    h.bitItems_width

/-- A group moves the frontier to the end of the last of its fields. -/
lemma place_stop {group : FieldGroup} (hvalid : group.Valid target)
    (h : group.place site extent frontier = .ok (next, placed)) :
    next.offset = (placed.map PlacedField.stop).foldl max frontier.offset := by
  have hgrows := (place_offset_le hvalid h).1
  cases group with
  | plain field =>
    obtain ⟨size, natural, -, start, -, rfl, rfl⟩ := place_plain_eq_ok h
    exact (max_eq_right hgrows).symm
  | marker field =>
    obtain ⟨rfl, rfl⟩ := place_marker_eq_ok h
    exact (max_eq_right hgrows).symm
  | run unit members =>
    obtain ⟨start, -, rfl, rfl⟩ := place_run_eq_ok h
    obtain ⟨bit, hbit, hend⟩ := hvalid.exists_unit_eq_size
    have hstop : start + (PackedRun.ofMembers unit (bitItems members)).size =
        (placeBit start unit bit).stop := by
      rw [← hend, PlacedField.stop, placeBit, Nat.add_assoc]
    apply Nat.le_antisymm
    · obtain ⟨-, hstops⟩ := foldl_max_le_iff.mp (le_refl (List.foldl max frontier.offset _))
      exact hstop.le.trans (hstops _ (List.mem_map_of_mem (List.mem_map_of_mem hbit)))
    · refine foldl_max_le_iff.mpr ⟨hgrows, fun n hn => ?_⟩
      obtain ⟨field, hfield, rfl⟩ := List.mem_map.mp hn
      obtain ⟨other, hother, rfl⟩ := List.mem_map.mp hfield
      exact placeBit_stop_le hvalid.1 start hvalid.2.2 hother

/-- Fields move the frontier to the end of the one that ends last. -/
theorem placeAll_stop {groups : List FieldGroup} (hvalid : ∀ group ∈ groups, group.Valid target)
    (h : placeAll site extent frontier groups = .ok (last, placed)) :
    last.offset = (placed.map PlacedField.stop).foldl max frontier.offset := by
  induction groups generalizing frontier placed with
  | nil =>
    cases h
    rfl
  | cons group groups ih =>
    obtain ⟨next, first, others, hgroup, hrest, rfl⟩ := placeAll_cons_eq_ok h
    obtain ⟨hhead, htail⟩ := List.forall_mem_cons.mp hvalid
    rw [List.map_append, List.foldl_append, ← place_stop hhead hgroup]
    exact ih htail hrest

end FieldGroup

namespace Draft

variable {target : Target} {site : Site} {draft next last : Draft} {sharing : Sharing}
  {bytes : TypeId × Core → Nat} {cores : List (TypeId × Core)}

/-- Bases that take their whole size move the frontier to the end of the one that ends last. -/
theorem embedAll_stop (h : draft.embedAll site sharing bytes cores = .ok last)
    (hcores : ∀ core ∈ cores, core.2.Regular target)
    (hbytes : ∀ core ∈ cores, bytes core = core.2.size) :
    ∃ bases, last.bases = draft.bases ++ bases ∧
      last.frontier.offset = (PlacedBase.stops bases).foldl max draft.frontier.offset := by
  induction cores generalizing draft with
  | nil =>
    cases h
    exact ⟨[], (List.append_nil _).symm, rfl⟩
  | cons core cores ih =>
    obtain ⟨next, hnext, h⟩ := foldlM_cons_eq_ok.mp h
    obtain ⟨hcore, hcores⟩ := List.forall_mem_cons.mp hcores
    obtain ⟨hwhole, hbytes⟩ := List.forall_mem_cons.mp hbytes
    obtain ⟨start, hembeds, hlisted⟩ := embed_regular hnext hcore
    obtain ⟨bases, hbases, hlast⟩ := ih h hcores hbytes
    have hgrows := hembeds.offset_le
    refine ⟨⟨core.1, start, core.2.size, sharing⟩ :: bases,
      by rw [hbases, hlisted, List.append_assoc]; rfl, ?_⟩
    rw [hlast, PlacedBase.stops, PlacedBase.stops, List.filter_cons]
    rcases Nat.eq_zero_or_pos core.2.dataSize with hempty | hfilled
    · have hsize : core.2.size = 0 := by rw [hcore.size, if_pos hempty]
      obtain ⟨hstart, hoffset⟩ := hembeds.empty hempty
      simp [hsize, hoffset, hstart]
    · have hsize : 0 < core.2.size := hfilled.trans_le hcore.dataSize_le_size
      obtain ⟨-, hoffset⟩ := hembeds.filled hfilled
      rw [if_pos (by simpa using hsize), List.map_cons, List.foldl_cons, PlacedBase.stop]
      dsimp only
      rw [← hwhole, ← hoffset, max_eq_right hgrows]

end Draft

namespace Composite.Construction

variable {target : Target} {isPod : TypeId → Bool} {part : TypeId → Except Rejection Placed}
  {c : Composite} {placed : Placed} {steps : Construction target isPod part c placed}

/-- The data ends where the slot ends, or with the base or the field that ends last. -/
theorem PartsRegular.dataSize_stop (h : steps.PartsRegular) (hwell : c.WellFormed target)
    (hpolicy : target.tailPadding = .keep) :
    placed.layout.dataSize = (PlacedBase.stops placed.layout.ownedBases ++
      placed.layout.fields.map PlacedField.stop ++
      PlacedBase.stops placed.layout.sharedBases).foldl max steps.opened.frontier.offset := by
  have hkeeps : ∀ core ∈ steps.owned, ownedBytes target isPod core = core.2.size := by
    intro core _
    rw [ownedBytes, hpolicy]
  obtain ⟨owned, howned, hbased⟩ :=
    Draft.embedAll_stop steps.bases h.owned hkeeps
  obtain ⟨shared, hshared, hcomplete⟩ :=
    Draft.embedAll_stop steps.shared h.hoisted fun _ _ => rfl
  have hfields := FieldGroup.placeAll_stop (FieldGroup.ofFields_valid hwell.fields) steps.fields
  rw [steps.opened_bases, List.nil_append, ← steps.bases_split.1] at howned
  have hhoisted : placed.layout.sharedBases = shared :=
    List.append_cancel_left (steps.bases_split.2.1.symm.trans hshared)
  rw [steps.dataSize_eq, hcomplete, forceAlign_offset, hfields, hbased, howned, hhoisted,
    List.foldl_append, List.foldl_append]

end Composite.Construction

namespace Layout

variable {layout : Layout} {n : Nat}

/-- Where fields stand that take no bytes, which are the markers. -/
def markerOffsets (layout : Layout) : Set Nat :=
  {n | ∃ field ∈ layout.fields, field.size = 0 ∧ field.offset = n}

lemma mem_bases_iff {base : PlacedBase} :
    base ∈ layout.bases ↔ base ∈ layout.ownedBases ∨ base ∈ layout.sharedBases := by
  cases hsharing : base.sharing <;> simp [ownedBases, sharedBases, hsharing]

lemma mem_stops_iff : n ∈ PlacedBase.stops layout.ownedBases ++
      layout.fields.map PlacedField.stop ++ PlacedBase.stops layout.sharedBases ↔
    (∃ field ∈ layout.fields, field.stop = n) ∨
      ∃ base ∈ layout.bases, 0 < base.size ∧ base.stop = n := by
  simp only [PlacedBase.stops, List.mem_append, List.mem_map, List.mem_filter,
    decide_eq_true_eq, mem_bases_iff, or_and_right, exists_or, and_assoc]
  rw [or_assoc, or_left_comm]

end Layout

namespace TypeTable

variable {table : TypeTable} {target : Target} {id : TypeId} {c : Composite} {layout : Layout}

/-- Where the data of a layout may end: behind a field or a base that takes bytes, behind a slot
that the type opens, and at zero. -/
def DataEnds (table : TypeTable) (target : Target) (id : TypeId) (layout : Layout) : Set Nat :=
  {n | n = 0 ∨ (∃ field ∈ layout.fields, 0 < field.size ∧ field.stop = n) ∨
    (∃ base ∈ layout.bases, 0 < base.size ∧ base.stop = n) ∨
    table.OpensSlot id ∧ ∃ slot, layout.dispatch = some slot ∧ slot + target.pointerSize = n}

/-- The data ends with what holds data or with a marker, whichever is last. -/
lemma isGreatest_dataSize (hpointer : 0 < target.pointerSize)
    (hpolicy : target.tailPadding = .keep) (hc : table.get? id = some c)
    (h : table.layout target id = .ok layout) :
    IsGreatest (table.DataEnds target id layout ∪ layout.markerOffsets) layout.dataSize := by
  obtain ⟨hwell, placed, part, hplaced, rfl, parts, steps, hregular⟩ :=
    exists_regular_construction h hc
  obtain ⟨hlast, hends⟩ := isGreatest_foldl_max (PlacedBase.stops placed.layout.ownedBases ++
      placed.layout.fields.map PlacedField.stop ++ PlacedBase.stops placed.layout.sharedBases)
    steps.opened.frontier.offset
  rw [← hregular.dataSize_stop hwell hpolicy] at hlast hends
  constructor
  · rcases hlast with hslot | hstop
    · refine Or.inl ?_
      cases hopens : c.opensSlot steps.owned with
      | true =>
        obtain ⟨align, _, haccepted, -, -⟩ := layout_eq_ok h
        obtain ⟨slot, hdispatch, hend⟩ := steps.opened_stop hopens
        have hfresh := hplaced.opensSlot_of_opens haccepted hpointer hc parts steps hopens
        exact Or.inr (Or.inr (Or.inr ⟨hfresh, slot, hdispatch, hend.trans hslot.symm⟩))
      | false =>
        refine Or.inl ?_
        rw [hslot, Composite.openSlot_eq_ok steps.slot, hopens]
        rfl
    · rcases Layout.mem_stops_iff.mp hstop with ⟨field, hfield, hend⟩ | hbase
      · rcases Nat.eq_zero_or_pos field.size with hzero | hpos
        · rw [PlacedField.stop, hzero, Nat.add_zero] at hend
          exact Or.inr ⟨field, hfield, hzero, hend⟩
        · exact Or.inl (Or.inr (Or.inl ⟨field, hfield, hpos, hend⟩))
      · exact Or.inl (Or.inr (Or.inr (Or.inl hbase)))
  · have hstops : ∀ n, ((∃ field ∈ placed.layout.fields, field.stop = n) ∨
        ∃ base ∈ placed.layout.bases, 0 < base.size ∧ base.stop = n) →
        n ≤ placed.layout.dataSize :=
      fun n hn => hends (Or.inr (Layout.mem_stops_iff.mpr hn))
    rintro n ((rfl | ⟨field, hfield, -, hend⟩ | hbase | ⟨hopens, slot, hdispatch, hend⟩) |
      ⟨field, hfield, hzero, hend⟩)
    · exact Nat.zero_le _
    · exact hstops n (Or.inl ⟨field, hfield, hend⟩)
    · exact hstops n (Or.inr hbase)
    · obtain ⟨slot', hdispatch', hend'⟩ := steps.opened_stop (hopens.opens hc parts steps)
      obtain rfl : slot' = slot := Option.some.inj (hdispatch'.symm.trans hdispatch)
      exact hends (Or.inl (hend.symm.trans hend'))
    · exact hstops n (Or.inl ⟨field, hfield, by rw [PlacedField.stop, hzero, hend, Nat.add_zero]⟩)

/-- Where tail padding is kept, the data ends with the last part that holds data, or with a marker
that stands behind it. It ends with the last byte that holds data exactly when no marker stands
behind that byte. -/
theorem dataSize_isGreatest (table : TypeTable) (target : Target) (id : TypeId) (c : Composite)
    (layout : Layout) (hpointer : 0 < target.pointerSize)
    (hpolicy : target.tailPadding = .keep) (hc : table.get? id = some c)
    (h : table.layout target id = .ok layout) :
    IsGreatest (table.DataEnds target id layout ∪ layout.markerOffsets) layout.dataSize ∧
      (IsGreatest (table.DataEnds target id layout) layout.dataSize ↔
        ∀ marker ∈ layout.markerOffsets, ∃ last ∈ table.DataEnds target id layout,
          marker ≤ last) := by
  obtain ⟨hmem, hends⟩ := isGreatest_dataSize hpointer hpolicy hc h
  refine ⟨⟨hmem, hends⟩, fun hgreatest marker hmarker => ?_, fun hbehind => ⟨?_, ?_⟩⟩
  · exact ⟨layout.dataSize, hgreatest.1, hends (Or.inr hmarker)⟩
  · rcases hmem with hdata | hmarker
    · exact hdata
    · obtain ⟨last, hlast, hle⟩ := hbehind _ hmarker
      have heq : last = layout.dataSize := Nat.le_antisymm (hends (Or.inl hlast)) hle
      exact heq ▸ hlast
  · exact fun n hn => hends (Or.inl hn)

/-- A slot, an empty base, an owned and a shared one, and a marker between two fields. -/
def markedPoint : TypeTable :=
  { entries := #[
      ⟨"Empty", some { name := "Empty" }⟩,
      ⟨"Point", some { name := "Point", fields := [{ name := "x", type := .short }] }⟩,
      ⟨"Marked", some
        { name := "Marked", introducesDispatch := true
          bases := [{ type := ⟨0⟩ }, { type := ⟨1⟩, sharing := .shared }, { type := ⟨1⟩ }]
          fields := [{ name := "first", type := .char },
            { name := "", type := .int, bitWidth := some 0 },
            { name := "flag", type := .int, bitWidth := some 3 }] }⟩] }

/-- The shared base ends last, and the marker stands before it. -/
theorem dataSize_isGreatest_markedPoint :
    let c : Composite :=
      { name := "Marked", introducesDispatch := true
        bases := [{ type := ⟨0⟩ }, { type := ⟨1⟩, sharing := .shared }, { type := ⟨1⟩ }]
        fields := [{ name := "first", type := .char },
          { name := "", type := .int, bitWidth := some 0 },
          { name := "flag", type := .int, bitWidth := some 3 }] }
    let layout : Layout :=
      { size := 24, align := 8, dataSize := 18, dispatch := some 0
        fields := [⟨"first", 10, 1, none⟩, ⟨"", 12, 0, some ⟨0, 0⟩⟩,
          ⟨"flag", 12, 4, some ⟨0, 3⟩⟩]
        bases := [⟨⟨0⟩, 8, 0, .owned⟩, ⟨⟨1⟩, 8, 2, .owned⟩, ⟨⟨1⟩, 16, 2, .shared⟩] }
    markedPoint.get? ⟨2⟩ = some c ∧ markedPoint.layout .lp64 ⟨2⟩ = .ok layout ∧
      IsGreatest (markedPoint.DataEnds .lp64 ⟨2⟩ layout ∪ layout.markerOffsets) 18 ∧
      IsGreatest (markedPoint.DataEnds .lp64 ⟨2⟩ layout) 18 := by
  intro c layout
  have hc : markedPoint.get? ⟨2⟩ = some c := by decide
  have hlayout : markedPoint.layout .lp64 ⟨2⟩ = .ok layout := by decide +kernel
  obtain ⟨hgreatest, hexact⟩ :=
    dataSize_isGreatest markedPoint .lp64 ⟨2⟩ c layout (by decide) rfl hc hlayout
  have hmarkers : ∀ field ∈ layout.fields, field.size = 0 → field.offset ≤ 18 := by decide
  have hlast : 18 ∈ markedPoint.DataEnds .lp64 ⟨2⟩ layout :=
    Or.inr (Or.inr (Or.inl ⟨⟨⟨1⟩, 16, 2, .shared⟩, by decide, by decide, rfl⟩))
  refine ⟨hc, hlayout, hgreatest, hexact.mpr ?_⟩
  rintro marker ⟨field, hfield, hzero, rfl⟩
  exact ⟨18, hlast, hmarkers field hfield hzero⟩

/-- One byte of data with a marker behind it. -/
def markedByte : TypeTable :=
  { entries := #[
      ⟨"Marked", some
        { name := "Marked"
          fields := [{ name := "first", type := .char },
            { name := "", type := .longLong, bitWidth := some 0 }] }⟩] }

/-- The last byte that holds data ends at one, but the data is said to end at the marker. -/
theorem dataSize_behind_markedByte :
    let layout : Layout :=
      { size := 8, align := 1, dataSize := 8, dispatch := none
        fields := [⟨"first", 0, 1, none⟩, ⟨"", 8, 0, some ⟨0, 0⟩⟩], bases := [] }
    markedByte.layout .lp64 ⟨0⟩ = .ok layout ∧
      IsGreatest (markedByte.DataEnds .lp64 ⟨0⟩ layout) 1 ∧
      ¬ IsGreatest (markedByte.DataEnds .lp64 ⟨0⟩ layout) layout.dataSize := by
  intro layout
  have hlayout : markedByte.layout .lp64 ⟨0⟩ = .ok layout := by decide +kernel
  have hfields : ∀ field ∈ layout.fields, 0 < field.size → field.stop ≤ 1 := by decide
  have hone : IsGreatest (markedByte.DataEnds .lp64 ⟨0⟩ layout) 1 := by
    refine ⟨Or.inr (Or.inl ⟨⟨"first", 0, 1, none⟩, by decide, by decide, rfl⟩), ?_⟩
    rintro n (rfl | ⟨field, hfield, hpos, rfl⟩ | ⟨base, hbase, -⟩ | ⟨-, slot, hdispatch, -⟩)
    · exact Nat.zero_le _
    · exact hfields field hfield hpos
    · cases hbase
    · cases hdispatch
  refine ⟨hlayout, hone, fun height => ?_⟩
  cases hone.unique height

end TypeTable

end ObjectLayout
