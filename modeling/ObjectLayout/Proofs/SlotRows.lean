import ObjectLayout.Proofs.DataEnd
import ObjectLayout.Proofs.ReportRows

/-!
# The row of the dispatch slot

A report looks at offsets only: it takes a slot for inherited if the bytes of some base hold it, and
has a row for any other. That is right for every layout whose bases end at words. A slot that the
type opens is the first thing in the object, so no base begins early enough to hold it; any other
slot is lent by a base and lies in the bytes of that base. But the end of a base that hands its tail
padding on may be no word: then the sum begins again at zero, and an inherited slot gets a row.
-/
namespace ObjectLayout

/-- The type introduces dispatch, and no base that it owns directly has a slot in its core. -/
def TypeTable.FreshSlot (table : TypeTable) (target : Target) (c : Composite) : Prop :=
  c.introducesDispatch = true ∧ ∀ base ∈ c.ownedBases, ∀ p,
    table.PlacedAs target base.type (.ok p) → p.core.dispatch = none

namespace Composite.Construction

variable {table : TypeTable} {target : Target} {id : TypeId} {isPod : TypeId → Bool}
  {part : TypeId → Except Rejection Placed} {c : Composite} {placed : Placed}

/-- A slot is fresh where the placement opens it. -/
lemma freshSlot_iff (steps : Construction target isPod part c placed)
    (hc : table.get? id = some c)
    (parts : ∀ other, table.Below id other → table.PlacedAs target other (part other)) :
    table.FreshSlot target c ↔ c.opensSlot steps.owned = true := by
  have hbelow : ∀ base ∈ c.ownedBases, table.Below id base.type := fun base hmem =>
    ((TypeTable.refers_iff hc).mpr (mem_references_of_ownedBase hmem)).below
  rw [TypeTable.FreshSlot, opensSlot, Bool.and_eq_true, Bool.not_eq_true',
    steps.any_owned_dispatch, List.any_eq_false]
  refine and_congr_right fun _ => forall₂_congr fun base hmem => ?_
  obtain ⟨core, -, p, hp, -⟩ := exists_of_mem_left steps.ownedLent hmem
  have hplaced := hp ▸ parts base.type (hbelow base hmem)
  rw [lentSlot_of_ok hp, Option.isSome_iff_ne_none, not_not]
  refine ⟨fun hnone => hnone p hplaced, fun hnone p' hp' => ?_⟩
  obtain rfl : p = p' := Except.ok.inj (hplaced.unique hp')
  exact hnone

variable {steps : Construction target isPod part c placed}

/-- A slot that the type opens lies at the start of the object, and every span behind it. -/
lemma PartsRegular.opened_first (h : steps.PartsRegular) (hwell : c.WellFormed target)
    (hpointer : 0 < target.pointerSize) (hopens : c.opensSlot steps.owned = true) :
    placed.layout.dispatch = some 0 ∧
      ∀ span ∈ placed.layout.spans, target.pointerSize ≤ span.start := by
  obtain ⟨slot, hslot, -, hbehind⟩ := h.slotFirst hwell hopens
  have hdispatch := h.layout_dispatch hpointer
  rw [h.core_dispatch hpointer, steps.opened_dispatch, if_pos hopens, hslot] at hdispatch
  obtain rfl : slot = 0 := by simpa using hdispatch
  exact ⟨hslot, by simpa using hbehind⟩

end Composite.Construction

namespace Report

variable {table : TypeTable} {target : Target} {report : Report} {layout : Layout}
  {bases : List NamedBase} {pointerSize size reached i : Nat} {rows : List Row} {row : Row}
  {nameOf : TypeId → String}

/-- The row stands for the dispatch slot. -/
def Row.isSlot (row : Row) : Bool := row.label == dispatchMark

lemma isSlot_of_label {first : Char} (hfirst : first = 'A' ∨ first = 'a')
    (h : row.label = labelFrom first i) : row.isSlot = false := by
  have hindex : i % 26 < 26 := Nat.mod_lt _ (by decide)
  rw [Row.isSlot, h, labelFrom]
  generalize i % 26 = k at hindex
  revert k
  rcases hfirst with rfl | rfl <;> decide

lemma dispatchRows_cases (bases : List NamedBase) (pointerSize : Nat) (slot : Option Nat) :
    dispatchRows bases pointerSize slot = [] ∨ ∃ offset, slot = some offset ∧
      dispatchRows bases pointerSize slot =
        [⟨offset, pointerSize, dispatchMark, "dispatch slot"⟩] := by
  cases slot with
  | none => exact Or.inl rfl
  | some offset =>
    rw [dispatchRows]
    split
    · exact Or.inl rfl
    · exact Or.inr ⟨offset, rfl, rfl⟩

/-- Sorting the rows leaves the rows for the slot: none, or one. -/
lemma filter_isSlot_memberRows (bases : List NamedBase) (pointerSize : Nat) (layout : Layout) :
    (memberRows bases pointerSize layout).filter Row.isSlot =
      dispatchRows bases pointerSize layout.dispatch := by
  have hbases : (bases.mapIdx baseRow).filter Row.isSlot = [] := by
    refine List.filter_eq_nil_iff.mpr fun row hmem => ?_
    obtain ⟨i, hi, rfl⟩ := List.mem_mapIdx.mp hmem
    rw [isSlot_of_label (Or.inl rfl) rfl]
    exact Bool.false_ne_true
  have hfields : (layout.fields.mapIdx fieldRow).filter Row.isSlot = [] := by
    refine List.filter_eq_nil_iff.mpr fun row hmem => ?_
    obtain ⟨i, hi, rfl⟩ := List.mem_mapIdx.mp hmem
    rw [isSlot_of_label (Or.inr rfl) rfl]
    exact Bool.false_ne_true
  have hperm := (List.mergeSort_perm (bases.mapIdx baseRow ++
    dispatchRows bases pointerSize layout.dispatch ++ layout.fields.mapIdx fieldRow)
      fun first second => first.offset ≤ second.offset).filter Row.isSlot
  rw [← memberRows, List.filter_append, List.filter_append, hbases, hfields, List.nil_append,
    List.append_nil] at hperm
  rcases dispatchRows_cases bases pointerSize layout.dispatch with hnone | ⟨offset, -, hone⟩
  · rw [hnone] at hperm ⊢
    exact hperm.eq_nil
  · rw [hone] at hperm ⊢
    exact List.perm_singleton.mp hperm

/-- Without a base that holds the slot there is a row for it. -/
lemma dispatchRows_eq_singleton {slot : Nat}
    (h : ∀ base ∈ bases, slot < base.offset) :
    dispatchRows bases pointerSize (some slot) =
      [⟨slot, pointerSize, dispatchMark, "dispatch slot"⟩] := by
  rw [dispatchRows, if_neg]
  rw [List.any_eq_true]
  rintro ⟨base, hmem, hheld⟩
  rw [Bool.and_eq_true, decide_eq_true_eq, decide_eq_true_eq] at hheld
  exact absurd (h base hmem) (Nat.not_lt.mpr hheld.1)

/-- Where a base holds the slot there is no row for it. -/
lemma dispatchRows_eq_nil {slot : Option Nat}
    (h : ∀ offset ∈ slot, ∃ base ∈ bases,
      base.offset ≤ offset ∧ offset < endOf base.offset base.size) :
    dispatchRows bases pointerSize slot = [] := by
  cases slot with
  | none => rfl
  | some offset =>
    obtain ⟨base, hmem, hstart, hstop⟩ := h offset rfl
    rw [dispatchRows, if_pos]
    exact List.any_eq_true.mpr ⟨base, hmem, by simp [hstart, hstop]⟩

/-- Whatever has a row without standing for the slot is a span of the layout. -/
lemma exists_span (h : row ∈ memberRows (namedBases nameOf layout) pointerSize layout)
    (hslot : row.isSlot = false) : ∃ span ∈ layout.spans, row.offset = span.start := by
  rcases mem_memberRows.mp h with ⟨i, named, hnamed, rfl⟩ | hdispatch | ⟨i, field, hfield, rfl⟩
  · rw [namedBases, List.getElem?_map] at hnamed
    obtain ⟨base, hbase, rfl⟩ := Option.map_eq_some_iff.mp hnamed
    refine ⟨.base base, ?_, rfl⟩
    rw [Layout.spans, List.mem_append, List.mem_append]
    rcases Layout.mem_bases_iff.mp (List.mem_of_getElem? hbase) with howned | hshared
    · exact Or.inl (Or.inl (List.mem_map_of_mem howned))
    · exact Or.inr (List.mem_map_of_mem hshared)
  · rcases dispatchRows_cases (namedBases nameOf layout) pointerSize layout.dispatch with
      hnone | ⟨offset, -, hone⟩
    · rw [hnone] at hdispatch
      cases hdispatch
    · rw [hone, List.mem_singleton] at hdispatch
      rw [hdispatch] at hslot
      cases hslot
  · exact ⟨.field i field, Layout.mem_spans_of_getElem? hfield, rfl⟩

section

variable {isPod : TypeId → Bool} {part : TypeId → Except Rejection Placed} {c : Composite}
  {placed : Placed} {steps : Composite.Construction target isPod part c placed}
  (hregular : steps.PartsRegular) (hwell : c.WellFormed target)
  (hpointer : 0 < target.pointerSize)
include hregular hwell hpointer

/-- A slot that the type opens has the one row for a slot, and all others begin behind it. -/
lemma rows_of_opened (nameOf : TypeId → String) (hopens : c.opensSlot steps.owned = true) :
    let rows := memberRows (namedBases nameOf placed.layout) target.pointerSize placed.layout
    rows.filter Row.isSlot = [⟨0, target.pointerSize, dispatchMark, "dispatch slot"⟩] ∧
      ∀ row ∈ rows, row.isSlot = false → target.pointerSize ≤ row.offset := by
  intro rows
  obtain ⟨hslot, hbehind⟩ := hregular.opened_first hwell hpointer hopens
  have hbegins : ∀ row ∈ rows, row.isSlot = false → target.pointerSize ≤ row.offset := by
    intro row hmem hother
    obtain ⟨span, hspan, hoffset⟩ := exists_span hmem hother
    exact hoffset ▸ hbehind span hspan
  refine ⟨?_, hbegins⟩
  rw [filter_isSlot_memberRows, hslot]
  refine dispatchRows_eq_singleton fun base hmem => hpointer.trans_le ?_
  obtain ⟨j, hj⟩ := List.mem_iff_getElem?.mp hmem
  have hrow : baseRow j base ∈ rows := mem_memberRows.mpr (Or.inl ⟨j, base, hj, rfl⟩)
  exact hbegins _ hrow (isSlot_of_label (Or.inl rfl) rfl)

/-- Any other slot lies in the bytes of a base. -/
lemma lent_inside_named (nameOf : TypeId → String) (hcloses : c.opensSlot steps.owned = false) :
    ∀ slot ∈ placed.layout.dispatch, ∃ base ∈ namedBases nameOf placed.layout,
      base.offset ≤ slot ∧ slot + target.pointerSize ≤ base.offset + base.size := by
  intro slot hslot
  obtain ⟨base, hmem, hinside⟩ := hregular.lent_slot_inside hwell hpointer hcloses hslot
  exact ⟨_, List.mem_map_of_mem hmem, hinside⟩

/-- If the bases end at words, it has no row. -/
lemma rows_of_lent (nameOf : TypeId → String) (hcloses : c.opensSlot steps.owned = false)
    (hends : ∀ base ∈ namedBases nameOf placed.layout, base.offset + base.size < UInt64.size) :
    (memberRows (namedBases nameOf placed.layout) target.pointerSize placed.layout).filter
      Row.isSlot = [] := by
  rw [filter_isSlot_memberRows]
  refine dispatchRows_eq_nil fun slot hslot => ?_
  obtain ⟨base, hbase, hstart, hstop⟩ :=
    lent_inside_named hregular hwell hpointer nameOf hcloses slot hslot
  refine ⟨base, hbase, hstart, ?_⟩
  rw [endOf_of_lt (hends base hbase)]
  omega

end

/-- Each report tells of the layout of its own entry. -/
lemma ofEntries_laid (table : TypeTable) (target : Target) (entries : List CatalogueEntry) :
    List.Forall₂ (fun entry report => ∀ layout, report.layout = .ok layout →
      table.layout target entry.type = .ok layout) entries (ofEntries table target entries) := by
  have hstart : Workbench.Sound table target { planner := .new table target } :=
    Planner.Sound.new table target
  refine (mapM_meets (fun entry _ bench hbench => ?_) hstart).1
  refine ⟨fun layout hlayout => ?_, (ofEntry_draws hbench entry).2⟩
  have hanswer : ((Planner.layout entry.type).run bench.planner).1 = .ok layout := hlayout
  rw [← hanswer]
  exact (Planner.Sound.new table target).layout_eq hbench entry.type

/-- A dial that opens a slot, though the counter that it shares has one; and a gauge that takes the
slot of the counter that it owns, in whose tail padding it has its mark. -/
def instruments : TypeTable :=
  { entries := #[
      ⟨"Tag", some { name := "Tag" }⟩,
      ⟨"Counter", some
        { name := "Counter", introducesDispatch := true, userProvided := { destroy := true }
          fields := [{ name := "count", type := .longLong }, { name := "flag", type := .char }] }⟩,
      ⟨"Dial", some
        { name := "Dial", introducesDispatch := true
          bases := [{ type := ⟨0⟩ }, { type := ⟨1⟩, sharing := .shared }]
          fields := [{ name := "level", type := .char }] }⟩,
      ⟨"Gauge", some
        { name := "Gauge", introducesDispatch := true
          bases := [{ type := ⟨0⟩ }, { type := ⟨1⟩ }]
          fields := [{ name := "mark", type := .char }] }⟩] }

/-- A coach with a packed wagon behind its engine, which hands its tail padding on and nearly fills
the words. -/
def trains : TypeTable :=
  { entries := #[
      ⟨"Engine", some { name := "Engine", fields := [{ name := "power", type := .scalar 17 1 }] }⟩,
      ⟨"Wagon", some
        { name := "Wagon", introducesDispatch := true
          fields := [{ name := "load", type := .scalar 18446744073709551588 1 }] }⟩,
      ⟨"Train", some
        { name := "Train", bases := [{ type := ⟨0⟩ }, { type := ⟨1⟩ }], packing := some 1 }⟩] }

end Report

end ObjectLayout
