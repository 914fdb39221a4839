import ObjectLayout.Proofs.DataEnd

/-!
# Hollow types

A type is hollow when neither it nor a type that it owns along some path has data or a dispatch
slot of its own. The frontier tells: while the core of a hollow type is placed it never leaves zero,
whatever markers and other hollow types come by, and any other core moves it. So the bases without
size are the hollow ones.
-/
namespace ObjectLayout

namespace FieldGroup

variable {target : Target} {site : Site} {extent : FieldType → Except Rejection (Nat × Nat)}
  {frontier next last : Frontier} {placed : List PlacedField}

/-- A group that holds data takes room. -/
lemma place_fills {group : FieldGroup} (hvalid : group.Valid target)
    (hsizes : ∀ field ∈ group.fields, ∀ size natural,
      extent field.type = .ok (size, natural) → 0 < size)
    (hdata : ∃ field ∈ group.fields, field.isMarker = false)
    (h : group.place site extent frontier = .ok (next, placed)) :
    frontier.offset < next.offset := by
  cases group with
  | plain field =>
    obtain ⟨size, natural, hextent, start, hstart, rfl, -⟩ := place_plain_eq_ok h
    have hle : frontier.offset ≤ start := hstart ▸ le_roundUp _ _
    have hsize := hsizes field (List.mem_singleton_self field) size natural hextent
    dsimp only
    omega
  | marker field =>
    obtain ⟨other, hmem, hmarker⟩ := hdata
    rw [List.mem_singleton.mp hmem, Field.isMarker, hvalid.1] at hmarker
    cases hmarker
  | run unit members =>
    obtain ⟨start, hstart, rfl, -⟩ := place_run_eq_ok h
    have hle : frontier.offset ≤ start := hstart ▸ le_roundUp _ _
    obtain ⟨bit, -, hsize⟩ := hvalid.exists_unit_eq_size
    have hunit := hvalid.1
    dsimp only
    omega

/-- Fields of which one holds data take room. -/
lemma placeAll_fills {groups : List FieldGroup} (hvalid : ∀ group ∈ groups, group.Valid target)
    (hsizes : ∀ field ∈ groups.flatMap fields, ∀ size natural,
      extent field.type = .ok (size, natural) → 0 < size)
    (hdata : ∃ field ∈ groups.flatMap fields, field.isMarker = false)
    (h : placeAll site extent frontier groups = .ok (last, placed)) :
    frontier.offset < last.offset := by
  induction groups generalizing frontier placed with
  | nil =>
    obtain ⟨field, hmem, -⟩ := hdata
    cases hmem
  | cons group groups ih =>
    obtain ⟨next, first, others, hgroup, hrest, rfl⟩ := placeAll_cons_eq_ok h
    obtain ⟨hhead, htail⟩ := List.forall_mem_cons.mp hvalid
    rw [List.flatMap_cons] at hsizes hdata
    have hnext := (place_offset_le hhead hgroup).1
    have hlast := (placeAll_offset_le htail hrest).1
    obtain ⟨field, hmem, hmarker⟩ := hdata
    rcases List.mem_append.mp hmem with hmem | hmem
    · exact (place_fills hhead
        (fun field hfield => hsizes field (List.mem_append_left _ hfield))
        ⟨field, hmem, hmarker⟩ hgroup).trans_le hlast
    · exact hnext.trans_lt (ih htail
        (fun field hfield => hsizes field (List.mem_append_right _ hfield))
        ⟨field, hmem, hmarker⟩ hrest)

end FieldGroup

namespace Composite

variable {target : Target} {isPod : TypeId → Bool} {part : TypeId → Except Rejection Placed}
  {c : Composite} {placed : Placed} {steps : Construction target isPod part c placed}

/-- A type that declares data has a core with data. -/
lemma Construction.PartsRegular.core_filled (h : steps.PartsRegular) (hwell : c.WellFormed target)
    (hpointer : 0 < target.pointerSize) (hdata : c.declaresData = true) :
    0 < placed.core.dataSize := by
  obtain ⟨field, hmem⟩ : ∃ field, field ∈ c.members := by
    rw [declaresData, Bool.not_eq_true', List.isEmpty_eq_false_iff_exists_mem] at hdata
    exact hdata
  obtain ⟨hfield, hmarker⟩ := List.mem_filter.mp hmem
  have hfills := FieldGroup.placeAll_fills (FieldGroup.ofFields_valid hwell.fields) ?_ ?_
    steps.fields
  · rw [steps.core]
    exact (Nat.zero_le _).trans_lt hfills
  · rw [FieldGroup.flatMap_fields_ofFields]
    exact fun field hfield size natural => extent_pos (hwell.fields field hfield) hpointer
      fun id htype p => h id p (Or.inl (mem_references_of_field hfield htype))
  · rw [FieldGroup.flatMap_fields_ofFields]
    exact ⟨field, hfield, by simpa using hmarker⟩

end Composite

namespace TypeTable

variable {table : TypeTable} {target : Target} {id : TypeId} {align : Nat} {placed : Placed}
  {layout : Layout}

/-- Neither the type nor a type that it owns along some path declares data or introduces
dispatch. -/
def Hollow (table : TypeTable) (id : TypeId) : Prop :=
  ∀ part c, table.Owns id part → table.get? part = some c →
    c.declaresData = false ∧ c.introducesDispatch = false

/-- A core holds what the types hold that the type owns. -/
lemma PlacedAs.core_filled (h : table.PlacedAs target id (.ok placed))
    (haccepted : table.Accepted target id align) (hpointer : 0 < target.pointerSize)
    {source : TypeId} {d : Composite} (howns : table.Owns id source)
    (hd : table.get? source = some d) (hdata : d.declaresData = true) :
    0 < placed.core.dataSize := by
  induction h using ok_induction generalizing align with
  | @step id placed c part h defined parts steps ih =>
    have hwell := haccepted.wellFormed defined
    have hregular := h.partsRegular haccepted defined parts steps
    rcases howns with rfl | ⟨path, hpath⟩
    · obtain rfl : c = d := Option.some.inj (defined.symm.trans hd)
      exact hregular.core_filled hwell hpointer hdata
    · obtain ⟨base, hbase, howns⟩ := hpath.exists_ownedBase defined
      obtain ⟨listed, hlisted, htype⟩ := steps.exists_listed hbase
      obtain ⟨p, hp, hbears⟩ := hregular.owned_bears hwell hlisted
      rw [htype] at hp
      have hbelow := h.below_of_part defined (Or.inl (Composite.mem_references_of_ownedBase hbase))
      obtain ⟨align', haccepted'⟩ := haccepted.reaches hbelow.reaches
      have hinner := ih base.type hbelow p hp haccepted' howns
      exact hinner.trans_le ((Nat.le_add_left _ _).trans hbears.within)

/-- The core of a hollow type has no data. -/
lemma PlacedAs.core_empty (h : table.PlacedAs target id (.ok placed)) (hhollow : table.Hollow id) :
    placed.core.dataSize = 0 := by
  by_contra hfilled
  obtain ⟨part, c, howns, hc, hcontent⟩ := h.exists_content (Nat.pos_of_ne_zero hfilled)
  obtain ⟨hdata, hdispatch⟩ := hhollow part c howns hc
  rcases hcontent with hsome | hsome
  · exact Bool.noConfusion (hdispatch.symm.trans hsome)
  · exact Bool.noConfusion (hdata.symm.trans hsome)

/-- The core of a hollow type has no slot. -/
lemma PlacedAs.core_slotless (h : table.PlacedAs target id (.ok placed))
    (hhollow : table.Hollow id) : placed.core.dispatch = none := by
  by_contra hslot
  obtain ⟨part, howns, c, hc, hdispatch⟩ :=
    h.exists_introduces (Option.isSome_iff_ne_none.mpr hslot)
  exact Bool.noConfusion ((hhollow part c howns hc).2.symm.trans hdispatch)

/-- The cores without data are those of the hollow types. -/
theorem PlacedAs.core_empty_iff (h : table.PlacedAs target id (.ok placed))
    (haccepted : table.Accepted target id align) (hpointer : 0 < target.pointerSize) :
    placed.core.dataSize = 0 ↔ table.Hollow id := by
  refine ⟨fun hempty part c howns hc => ?_, h.core_empty⟩
  refine ⟨Bool.eq_false_iff.mpr fun hdata => ?_, Bool.eq_false_iff.mpr fun hdispatch => ?_⟩
  · exact absurd hempty (h.core_filled haccepted hpointer howns hc hdata).ne'
  · have hslot := (h.core_dispatch_iff haccepted hpointer).mpr ⟨part, howns, c, hc, hdispatch⟩
    have hcore := (h.regular haccepted).core
    exact absurd hempty (hcore.dataSize_pos hpointer hslot).ne'

/-- The bases without size are those of the hollow types. -/
theorem base_size_eq_zero_iff (hpointer : 0 < target.pointerSize)
    (h : table.layout target id = .ok layout) {base : PlacedBase} (hmem : base ∈ layout.bases) :
    base.size = 0 ↔ table.Hollow base.type := by
  obtain ⟨align, placed, haccepted, hplaced, rfl⟩ := layout_eq_ok h
  obtain ⟨c, part, defined, parts, ⟨steps⟩⟩ := hplaced.construction
  have hwell := haccepted.wellFormed defined
  have hregular := hplaced.partsRegular haccepted defined parts steps
  obtain ⟨p, hp, hsize⟩ : ∃ p, part base.type = .ok p ∧ base.size = p.core.size := by
    rcases Layout.mem_bases_iff.mp hmem with howned | hshared
    · obtain ⟨p, hp, hbears⟩ := hregular.owned_bears hwell howned
      exact ⟨p, hp, hbears.size⟩
    · obtain ⟨p, hp, hbears⟩ := hregular.shared_bears hwell hshared
      exact ⟨p, hp, hbears.size⟩
  have hbelow := hplaced.below_of_mem_bases hmem
  obtain ⟨align', haccepted'⟩ := haccepted.reaches hbelow.reaches
  have hbase := hp ▸ parts base.type hbelow
  have hcore := (hbase.regular haccepted').core
  rw [hsize, ← hbase.core_empty_iff haccepted' hpointer, hcore.size]
  by_cases hempty : p.core.dataSize = 0
  · simp only [hempty, if_true]
  · have hle := le_roundUp p.core.dataSize p.core.align
    rw [if_neg hempty]
    omega

end TypeTable

end ObjectLayout
