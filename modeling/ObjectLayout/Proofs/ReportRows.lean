import ObjectLayout.Proofs.BaseEnds
import ObjectLayout.Proofs.BaseWalk
import ObjectLayout.Proofs.PrintedLines
import ObjectLayout.Report.Render

/-!
# The rows of a report

A report draws its layout from one row for each base and each field, and one for the slot unless a
base holds it. A row begins in the object, and the bytes of a field that is not a bit-field belong
to no other field. What else covers them begins before the field: an owned base that gave up its
tail padding. So in the byte map the field is painted behind it and shows, and both pictures of the
layout agree on its padding. Of a layout whose bytes memory has room for, no row reaches past the
last word.
-/
namespace ObjectLayout

/-- What the rows of a layout rest on: where bases, fields and the slot begin and end. -/
structure Layout.Drawable (pointerSize : Nat) (layout : Layout) : Prop where
  field_stop : ∀ field ∈ layout.fields, field.offset + field.size ≤ layout.size
  base_start : ∀ base ∈ layout.bases, base.offset ≤ layout.size
  base_stop : ∀ base ∈ layout.bases, base.offset + base.size < UInt64.size
  slot_stop : ∀ slot ∈ layout.dispatch, slot + pointerSize ≤ layout.size
  fields_apart : ∀ (i j : Nat) (one other : PlacedField), layout.fields[i]? = some one →
    layout.fields[j]? = some other → one.bits = none → i ≠ j →
      one.offset + one.size ≤ other.offset ∨ other.offset + other.size ≤ one.offset
  /-- A base ahead of a field begins earlier; it may overlap the field. -/
  base_apart : ∀ base ∈ layout.bases, ∀ field ∈ layout.fields,
    base.size = 0 ∨ base.offset < field.offset ∨ field.offset + field.size ≤ base.offset
  slot_apart : 0 < pointerSize → ∀ slot ∈ layout.dispatch,
    (∃ base ∈ layout.bases, base.offset ≤ slot ∧ slot < base.offset + base.size) ∨
      ∀ field ∈ layout.fields, slot + pointerSize ≤ field.offset

namespace Span

variable {fields : List PlacedField} {one other : PlacedField} {i j : Nat}

lemma getElem?_numbered (h : fields[i]? = some one) :
    (numbered 0 fields)[i]? = some (.field i one) := by
  simp [numbered, List.getElem?_zipIdx, h]

/-- What holds of the spans of fields in order holds of two fields in order. -/
lemma rel_of_pairwise_numbered {R : Span → Span → Prop} (h : (numbered 0 fields).Pairwise R)
    (hone : fields[i]? = some one) (hother : fields[j]? = some other) (hlt : i < j) :
    R (.field i one) (.field j other) := by
  obtain ⟨hi, hfirst⟩ := List.getElem?_eq_some_iff.mp (getElem?_numbered hone)
  obtain ⟨hj, hlast⟩ := List.getElem?_eq_some_iff.mp (getElem?_numbered hother)
  rw [← hfirst, ← hlast]
  exact List.pairwise_iff_getElem.mp h i j hi hj hlt

end Span

lemma Layout.mem_spans_of_getElem? {layout : Layout} {i : Nat} {field : PlacedField}
    (h : layout.fields[i]? = some field) : .field i field ∈ layout.spans :=
  List.mem_append_left _
    (List.mem_append_right _ (List.mem_of_getElem? (Span.getElem?_numbered h)))

namespace Composite.Construction

variable {target : Target} {isPod : TypeId → Bool} {part : TypeId → Except Rejection Placed}
  {c : Composite} {placed : Placed} {steps : Construction target isPod part c placed}

/-- A slot that the type does not open lies in the bytes of the base that lends it. -/
lemma PartsRegular.lent_slot_inside (h : steps.PartsRegular) (hwell : c.WellFormed target)
    (hpointer : 0 < target.pointerSize) (hopens : c.opensSlot steps.owned = false) {slot : Nat}
    (hslot : placed.layout.dispatch = some slot) :
    ∃ base ∈ placed.layout.bases, base.offset ≤ slot ∧
      slot + target.pointerSize ≤ base.offset + base.size := by
  have hlent : ∀ bases : List PlacedBase,
      (∀ base ∈ bases, base ∈ placed.layout.bases ∧ ∃ p, part base.type = .ok p ∧
        p.core.Regular target ∧ base.size = p.core.size) →
      Draft.firstSlot (lentSlot part) bases = some slot →
      ∃ base ∈ placed.layout.bases, base.offset ≤ slot ∧
        slot + target.pointerSize ≤ base.offset + base.size := by
    intro bases hbases hfirst
    obtain ⟨before, base, after, inner, rfl, hinner, rfl, -⟩ := Draft.firstSlot_eq_some hfirst
    obtain ⟨hmem, p, hp, hcore, hsize⟩ := hbases base (by simp)
    rw [lentSlot_of_ok hp] at hinner
    have hwithin := hcore.slot inner hinner
    have hfits := hcore.dataSize_le_size
    exact ⟨base, hmem, by omega, by omega⟩
  have hdispatch := h.layout_dispatch hpointer
  rw [h.core_dispatch hpointer, steps.opened_dispatch, hopens, hslot] at hdispatch
  simp only [Bool.false_eq_true, if_false, Option.none_or] at hdispatch
  cases howned : Draft.firstSlot (lentSlot part) placed.layout.ownedBases with
  | some lent =>
    obtain rfl : slot = lent := by simpa [howned] using hdispatch
    refine hlent _ (fun base hmem => ?_) howned
    obtain ⟨p, hp, hbears⟩ := h.owned_bears hwell hmem
    have href := steps.mem_references_of_ownedBases hmem
    exact ⟨List.mem_of_mem_filter hmem, p, hp, (h base.type p (Or.inl href) hp).core, hbears.size⟩
  | none =>
    rw [howned, Option.none_or] at hdispatch
    refine hlent _ (fun base hmem => ?_) hdispatch.symm
    obtain ⟨p, hp, hbears⟩ := h.shared_bears hwell hmem
    have hshared := steps.mem_shared_of_sharedBases hmem
    exact ⟨List.mem_of_mem_filter hmem, p, hp, (h base.type p (Or.inr hshared) hp).core,
      hbears.size⟩

/-- Bit-fields apart, the room of a field belongs to no other field. -/
lemma PartsRegular.fields_apart (h : steps.PartsRegular) (hwell : c.WellFormed target)
    (hcovers : placed.layout.Covers target c)
    {i j : Nat} {one other : PlacedField} (hone : placed.layout.fields[i]? = some one)
    (hother : placed.layout.fields[j]? = some other) (hlt : i < j)
    (hplain : one.bits = none ∨ other.bits = none) : one.offset + one.size ≤ other.offset := by
  have horder := (h.spans_inOrder hwell).order
  rw [Layout.spans, List.pairwise_append, List.pairwise_append] at horder
  refine (Span.rel_of_pairwise_numbered horder.1.2.1 hone hother hlt).resolve_right ?_
  rintro ⟨i', j', one', other', unit, heq, heq', hrun, -⟩
  cases heq
  cases heq'
  -- In one unit both would be bit-fields.
  have hbits : ∀ k field, i ≤ k → k ≤ j → placed.layout.fields[k]? = some field →
      field.bits ≠ none := by
    intro k field hfirst hlast hk
    obtain ⟨declared, width, hdeclared, hwidth, -⟩ := hrun k hfirst hlast
    obtain ⟨hk', rfl⟩ := List.getElem?_eq_some_iff.mp hk
    obtain ⟨hd', rfl⟩ := List.getElem?_eq_some_iff.mp hdeclared
    have hcovered := (List.forall₂_iff_get.mp hcovers.fields).2 k hd' hk'
    simp only [List.get_eq_getElem] at hcovered
    intro hnone
    have := hcovered.2.1
    rw [hnone, hwidth] at this
    cases this
  rcases hplain with hplain | hplain
  · exact hbits i one (le_refl i) hlt.le hone hplain
  · exact hbits j other hlt.le (le_refl j) hother hplain

/-- The data of an owned base ends before any field begins. -/
lemma PartsRegular.owned_before (h : steps.PartsRegular) (hwell : c.WellFormed target)
    {base : PlacedBase} {p : Placed} (hbase : base ∈ placed.layout.ownedBases)
    (hp : part base.type = .ok p) {field : PlacedField} (hfield : field ∈ placed.layout.fields) :
    base.offset + p.core.dataSize ≤ field.offset := by
  have horder := (h.spans_inOrder hwell).order
  rw [Layout.spans, List.pairwise_append, List.pairwise_append] at horder
  obtain ⟨i, hi⟩ := List.mem_iff_getElem?.mp hfield
  have hbefore : base.offset + room target isPod part (.base base) ≤ field.offset := by
    refine (horder.1.2.2 (.base base) (List.mem_map_of_mem hbase) (.field i field)
      (List.mem_of_getElem? (Span.getElem?_numbered hi))).resolve_right ?_
    rintro ⟨_, _, _, _, _, heq, -⟩
    cases heq
  have howned : base.sharing = .owned := by simpa using (List.mem_filter.mp hbase).2
  have href := steps.mem_references_of_ownedBases hbase
  have hcore := (h base.type p (Or.inl href) hp).core
  have hroom : room target isPod part (.base base) =
      ownedBytes target isPod (base.type, p.core) := by
    simp only [room, howned, hp]
  have hdata : p.core.dataSize ≤ ownedBytes target isPod (base.type, p.core) :=
    @dataSize_le_ownedBytes target isPod (base.type, p.core) hcore.dataSize_le_size
  omega

/-- A base that is not empty begins before a field or behind it. -/
lemma PartsRegular.base_apart (h : steps.PartsRegular) (hwell : c.WellFormed target)
    {base : PlacedBase} (hbase : base ∈ placed.layout.bases) {field : PlacedField}
    (hfield : field ∈ placed.layout.fields) :
    base.size = 0 ∨ base.offset < field.offset ∨ field.offset + field.size ≤ base.offset := by
  rw [steps.bases_eq_append, List.mem_append] at hbase
  rcases hbase with howned | hshared
  · obtain ⟨p, hp, hbears⟩ := h.owned_bears hwell howned
    have href := steps.mem_references_of_ownedBases howned
    have hcore := (h base.type p (Or.inl href) hp).core
    have hsize : base.size = p.core.size := hbears.size
    rcases Nat.eq_zero_or_pos p.core.dataSize with hempty | hfilled
    · left
      rw [hsize, hcore.size, if_pos hempty]
    · have hbefore := h.owned_before hwell howned hp hfield
      exact Or.inr (Or.inl (by omega))
  · exact Or.inr (Or.inr ((h.shared_behind hwell hshared).1 field hfield))

theorem PartsRegular.drawable (h : steps.PartsRegular) (hwell : c.WellFormed target)
    (hcovers : placed.layout.Covers target c)
    (hends : ∀ base ∈ placed.layout.bases, base.offset + base.size < UInt64.size) :
    placed.layout.Drawable target.pointerSize := by
  have hsize := (h.regular hwell).dataSize_le_size
  constructor
  case field_stop =>
    intro field hmem
    obtain ⟨i, hi⟩ := List.mem_iff_getElem?.mp hmem
    exact ((h.spans_inOrder hwell).within _ (Layout.mem_spans_of_getElem? hi)).2.trans
      hsize
  case base_start =>
    intro base hmem
    obtain ⟨p, -, hwithin⟩ := h.base_within hwell hmem
    omega
  case base_stop => exact hends
  case slot_stop => exact fun slot hslot => (h.slot_within hwell slot hslot).trans hsize
  case fields_apart =>
    intro i j one other hone hother hplain hne
    rcases Nat.lt_or_gt_of_ne hne with hlt | hgt
    · exact Or.inl (h.fields_apart hwell hcovers hone hother hlt (Or.inl hplain))
    · exact Or.inr (h.fields_apart hwell hcovers hother hone hgt (Or.inr hplain))
  case base_apart =>
    intro base hbase field hfield
    exact h.base_apart hwell hbase hfield
  case slot_apart =>
    intro hpointer slot hslot
    cases hopens : c.opensSlot steps.owned with
    | false =>
      obtain ⟨base, hmem, hstart, hstop⟩ := h.lent_slot_inside hwell hpointer hopens hslot
      exact Or.inl ⟨base, hmem, hstart, by omega⟩
    | true =>
      obtain ⟨first, hfirst, -, hbehind⟩ := h.slotFirst hwell hopens
      obtain rfl : slot = first := Option.some.inj (hslot.symm.trans hfirst)
      refine Or.inr fun field hfield => ?_
      obtain ⟨i, hi⟩ := List.mem_iff_getElem?.mp hfield
      exact hbehind (.field i field) (Layout.mem_spans_of_getElem? hi)

end Composite.Construction

namespace TypeTable

variable {table : TypeTable} {target : Target} {id : TypeId} {layout : Layout}

/-- Every layout whose bytes memory has room for can be drawn. -/
theorem layout_drawable (hwords : target.addressSpace = some UInt64.size)
    (h : table.layout target id = .ok layout) (hmemory : layout.size ≤ Report.mapCapacity) :
    layout.Drawable target.pointerSize := by
  have hends : ∀ base ∈ layout.bases, base.offset + base.size < UInt64.size := fun base hmem =>
    base_end_lt hwords h (hmemory.trans_lt (by decide)) hmem
  obtain ⟨align, placed, haccepted, hplaced, rfl⟩ := layout_eq_ok h
  obtain ⟨c, part, defined, parts, ⟨steps⟩⟩ := hplaced.construction
  have hregular := hplaced.partsRegular haccepted defined parts steps
  exact hregular.drawable (haccepted.wellFormed defined) (layout_covers defined h) hends

end TypeTable

namespace Report

/-- The placed bases under the names of their types. -/
def namedBases (nameOf : TypeId → String) (layout : Layout) : List NamedBase :=
  layout.bases.map fun base => ⟨nameOf base.type, base.offset, base.size, base.sharing⟩

/-- The report tells of a layout that a table has for a target. -/
structure Draws (table : TypeTable) (target : Target) (report : Report) (layout : Layout) :
    Prop where
  laid : ∃ id, table.layout target id = .ok layout
  bases : report.bases = namedBases table.label layout
  pointerSize : report.pointerSize = target.pointerSize

variable {table : TypeTable} {target : Target} {report : Report} {layout : Layout}

/-- The planner of the workbench has only been asked about one table and target. -/
def Workbench.Sound (table : TypeTable) (target : Target) (bench : Workbench) : Prop :=
  bench.planner.Sound table target

/-- A report tells of the layout that the table has, whatever was reported before. -/
lemma ofEntry_draws {bench : Workbench} (h : bench.Sound table target) (entry : CatalogueEntry) :
    (∀ layout, (ofEntry entry bench).1.layout = .ok layout →
      Draws table target (ofEntry entry bench).1 layout) ∧
      (ofEntry entry bench).2.Sound table target := by
  obtain ⟨hnext, -⟩ := Planner.Sound.layout h entry.type
  refine ⟨fun layout hlayout => ?_, hnext⟩
  have hanswer : ((Planner.layout entry.type).run bench.planner).1 = .ok layout := hlayout
  constructor
  case laid =>
    refine ⟨entry.type, ?_⟩
    rw [← hanswer]
    exact (Planner.Sound.new table target).layout_eq h entry.type
  case bases =>
    rw [← h.sameTable]
    cases hrun : (Planner.layout entry.type).run bench.planner with
    | mk found planner =>
      rw [hrun] at hanswer
      obtain rfl : found = .ok layout := hanswer
      simp only [ofEntry, hrun]
      rfl
  case pointerSize => exact congrArg Target.pointerSize hnext.sameTarget

/-- The reports of one run tell of the layouts that the table has, one by one. -/
theorem ofEntries_draws {entries : List CatalogueEntry}
    (hreport : report ∈ ofEntries table target entries) (hlayout : report.layout = .ok layout) :
    Draws table target report layout := by
  have hstart : Workbench.Sound table target { planner := .new table target } :=
    Planner.Sound.new table target
  have hstep : ∀ entry ∈ entries, ∀ bench, Workbench.Sound table target bench →
      (∀ layout, (ofEntry entry bench).1.layout = .ok layout →
        Draws table target (ofEntry entry bench).1 layout) ∧
        (ofEntry entry bench).2.Sound table target :=
    fun entry _ _ hbench => ofEntry_draws hbench entry
  have hrun := (mapM_meets (P := fun _ report =>
    ∀ layout, report.layout = .ok layout → Draws table target report layout) hstep hstart).1
  obtain ⟨entry, -, hdraws⟩ := exists_of_mem_right hrun hreport
  exact hdraws layout hlayout

section Rows

variable {nameOf : TypeId → String} {pointerSize i position : Nat} {row : Row}
  {field : PlacedField}

lemma mem_memberRows {bases : List NamedBase} : row ∈ memberRows bases pointerSize layout ↔
    (∃ i base, bases[i]? = some base ∧ row = baseRow i base) ∨
      row ∈ dispatchRows bases pointerSize layout.dispatch ∨
      ∃ i field, layout.fields[i]? = some field ∧ row = fieldRow i field := by
  have hindexed : ∀ {α : Type} (l : List α) (f : Nat → α → Row),
      row ∈ l.mapIdx f ↔ ∃ i x, l[i]? = some x ∧ row = f i x := by
    intro α l f
    rw [List.mem_mapIdx]
    constructor
    · rintro ⟨i, hi, rfl⟩
      exact ⟨i, l[i], List.getElem?_eq_getElem hi, rfl⟩
    · rintro ⟨i, x, hx, rfl⟩
      obtain ⟨hi, rfl⟩ := List.getElem?_eq_some_iff.mp hx
      exact ⟨i, hi, rfl⟩
  rw [memberRows, List.mem_mergeSort, List.mem_append, List.mem_append, hindexed, hindexed,
    or_assoc]

lemma memberRows_sorted (bases : List NamedBase) (pointerSize : Nat) (layout : Layout) :
    (memberRows bases pointerSize layout).Pairwise fun a b => a.offset ≤ b.offset := by
  have htrans : ∀ a b c : Row, decide (a.offset ≤ b.offset) = true →
      decide (b.offset ≤ c.offset) = true → decide (a.offset ≤ c.offset) = true := by
    simp only [decide_eq_true_eq]
    omega
  have htotal : ∀ a b : Row,
      (decide (a.offset ≤ b.offset) || decide (b.offset ≤ a.offset)) = true := by
    simp only [Bool.or_eq_true, decide_eq_true_eq]
    omega
  exact (List.pairwise_mergeSort htrans htotal _).imp of_decide_eq_true

lemma labelFrom_ne {first : Char} (hfirst : first = 'A' ∨ first = 'a') (i : Nat) :
    labelFrom first i ≠ '.' ∧ labelFrom first i ≠ ' ' := by
  have hindex : i % 26 < 26 := Nat.mod_lt _ (by decide)
  unfold labelFrom
  generalize i % 26 = k at hindex
  revert k
  rcases hfirst with rfl | rfl <;> decide

/-- No row carries the mark of padding, or a blank for a mark. -/
lemma label_ne {bases : List NamedBase} (h : row ∈ memberRows bases pointerSize layout) :
    row.label ≠ '.' ∧ row.label ≠ ' ' := by
  rcases mem_memberRows.mp h with ⟨i, base, -, rfl⟩ | hslot | ⟨i, field, -, rfl⟩
  · exact labelFrom_ne (Or.inl rfl) i
  · unfold dispatchRows at hslot
    split at hslot
    · cases hslot
    · split at hslot
      · cases hslot
      · obtain rfl := List.mem_singleton.mp hslot
        show dispatchMark ≠ '.' ∧ dispatchMark ≠ ' '
        decide
  · exact labelFrom_ne (Or.inr rfl) i

/-- A row stands for a base, for the slot where no base holds it, or for a field. -/
lemma row_cases (h : row ∈ memberRows (namedBases nameOf layout) pointerSize layout) :
    (∃ base ∈ layout.bases, row.offset = base.offset ∧ row.size = base.size) ∨
      (row.size = pointerSize ∧ layout.dispatch = some row.offset ∧
        ∀ base ∈ layout.bases,
          row.offset < base.offset ∨ endOf base.offset base.size ≤ row.offset) ∨
      ∃ i field, layout.fields[i]? = some field ∧ row = fieldRow i field := by
  rcases mem_memberRows.mp h with ⟨i, named, hnamed, rfl⟩ | hslot | hfield
  · rw [namedBases, List.getElem?_map] at hnamed
    obtain ⟨base, hbase, rfl⟩ := Option.map_eq_some_iff.mp hnamed
    exact Or.inl ⟨base, List.mem_of_getElem? hbase, rfl, rfl⟩
  · right
    left
    unfold dispatchRows at hslot
    cases hdispatch : layout.dispatch with
    | none =>
      rw [hdispatch] at hslot
      cases hslot
    | some slot =>
      rw [hdispatch] at hslot
      dsimp only at hslot
      split at hslot
      · cases hslot
      · next hnone =>
        obtain rfl := List.mem_singleton.mp hslot
        refine ⟨rfl, rfl, fun base hmem => ?_⟩
        show slot < base.offset ∨ endOf base.offset base.size ≤ slot
        by_contra hinside
        apply hnone
        rw [List.any_eq_true]
        refine ⟨_, List.mem_map_of_mem hmem, ?_⟩
        simp only [Bool.and_eq_true, decide_eq_true_eq]
        omega
  · exact Or.inr (Or.inr hfield)

/-- Every row begins in the object, or at its end. -/
lemma row_start (hdraw : layout.Drawable pointerSize)
    (h : row ∈ memberRows (namedBases nameOf layout) pointerSize layout) :
    row.offset ≤ layout.size := by
  rcases row_cases h with ⟨base, hbase, hoffset, -⟩ | ⟨-, hslot, -⟩ | ⟨i, field, hfield, rfl⟩
  · rw [hoffset]
    exact hdraw.base_start base hbase
  · exact (Nat.le_add_right _ _).trans (hdraw.slot_stop _ hslot)
  · exact (Nat.le_add_right _ _).trans (hdraw.field_stop field (List.mem_of_getElem? hfield))

/-- No row reaches past the last word. -/
lemma row_stop (hdraw : layout.Drawable pointerSize) (hsize : layout.size < UInt64.size)
    (h : row ∈ memberRows (namedBases nameOf layout) pointerSize layout) :
    row.stop = row.offset + row.size := by
  refine endOf_of_lt ?_
  rcases row_cases h with
    ⟨base, hbase, hoffset, hbytes⟩ | ⟨hbytes, hslot, -⟩ | ⟨i, field, hfield, rfl⟩
  · rw [hoffset, hbytes]
    exact hdraw.base_stop base hbase
  · rw [hbytes]
    exact (hdraw.slot_stop _ hslot).trans_lt hsize
  · exact (hdraw.field_stop field (List.mem_of_getElem? hfield)).trans_lt hsize

/-- A row that covers a byte of a field begins before the field, bit-fields apart. -/
lemma row_before_field (hdraw : layout.Drawable pointerSize)
    (hfield : layout.fields[i]? = some field) (hplain : field.bits = none)
    (hheld : (fieldRow i field).covers position = true)
    (h : row ∈ memberRows (namedBases nameOf layout) pointerSize layout)
    (hcovers : row.covers position = true) :
    row = fieldRow i field ∨ row.offset < (fieldRow i field).offset := by
  have hmem := List.mem_of_getElem? hfield
  rw [Row.covers_iff] at hheld hcovers
  have hfits : position < field.offset + field.size := hheld.2.trans_le (endOf_le _ _)
  have hbegins : field.offset ≤ position := hheld.1
  have hheld' : position < row.offset + row.size := hcovers.2.trans_le (endOf_le _ _)
  show _ ∨ row.offset < field.offset
  rcases row_cases h with
    ⟨base, hbase, hoffset, hsize⟩ | ⟨hsize, hslot, hnone⟩ | ⟨j, other, hother, rfl⟩
  · have hapart := hdraw.base_apart base hbase field hmem
    exact Or.inr (by omega)
  · rcases hdraw.slot_apart (by omega) _ hslot with ⟨base, hbase, hinside⟩ | hbehind
    · have hclear := hnone base hbase
      rw [endOf_of_lt (hdraw.base_stop base hbase)] at hclear
      omega
    · have := hbehind field hmem
      omega
  · change position < other.offset + other.size at hheld'
    have hbegins' : other.offset ≤ position := hcovers.1
    by_cases hsame : i = j
    · subst hsame
      obtain rfl : field = other := Option.some.inj (hfield.symm.trans hother)
      exact Or.inl rfl
    · have hapart := hdraw.fields_apart i j field other hfield hother hplain hsame
      omega

end Rows

/-- The text of a report holds the member table and below it the byte map. -/
lemma pictures_infix_textLines (hlayout : report.layout = .ok layout) :
    let rows := memberRows report.bases report.pointerSize layout
    (memberTable layout.size rows).map TableLine.text ++ ["  bytes:"] ++
      (byteMap layout.size rows).map (fun line => "    " ++ line) <:+: report.textLines := by
  intro rows
  have hpictures : (memberTable layout.size rows).map TableLine.text ++ ["  bytes:"] ++
      (byteMap layout.size rows).map (fun line => "    " ++ line) <:+ report.layoutLines layout :=
    ⟨[_, _], rfl⟩
  refine hpictures.isInfix.trans ?_
  rw [textLines, hlayout]
  exact ((List.infix_append [_] _ [_]).trans (List.prefix_append _ _).isInfix).trans
    (List.prefix_append _ _).isInfix

/-- A picture that puts a field into the tail padding of an owned base, with a slot, an empty base,
a bit-field, a marker, and a shared frame. -/
def gallery : TypeTable :=
  { entries := #[
      ⟨"Counted", some
        { name := "Counted", userProvided := { destroy := true }
          fields := [{ name := "count", type := .longLong }, { name := "flag", type := .char }] }⟩,
      ⟨"Tag", some { name := "Tag" }⟩,
      ⟨"Frame", some { name := "Frame", fields := [{ name := "width", type := .int }] }⟩,
      ⟨"Picture", some
        { name := "Picture", introducesDispatch := true
          bases := [{ type := ⟨0⟩ }, { type := ⟨1⟩ }, { type := ⟨2⟩, sharing := .shared }]
          fields := [{ name := "depth", type := .char },
            { name := "kind", type := .int, bitWidth := some 3 },
            { name := "", type := .int, bitWidth := some 0 },
            { name := "title", type := .pointer }, { name := "last", type := .char }] }⟩] }

end Report

end ObjectLayout
