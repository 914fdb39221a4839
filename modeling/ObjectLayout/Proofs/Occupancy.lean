import ObjectLayout.Proofs.FieldOccupancy

/-!
# Objects without overlap

The data of a placed type lies apart: its slot, then its owned bases, then its fields, then its
shared bases, each between the frontiers before and after. A base takes at least its data, also
where it gives up its tail padding, so what follows it begins behind all that it holds. By recursion
over the types below, no two pieces of data of a complete object overlap.
-/
namespace ObjectLayout

namespace Draft

variable {site : Site} {draft last : Draft} {sharing : Sharing} {bytes : TypeId × Core → Nat}
  {cores : List (TypeId × Core)} {expansion : TypeId → Expansion}

/-- A core that is embedded: it has room for its data, and its data is known. -/
structure Fits (expansion : TypeId → Expansion) (bytes : Nat) (base : TypeId × Core) : Prop where
  room : base.2.dataSize ≤ bytes
  slotData : base.2.dispatch.isSome → 0 < base.2.dataSize
  packed : BitRange.Packed 0 (8 * base.2.dataSize) (expansion base.1).core

lemma embed_occupies {type : TypeId} {core : Core} {bytes start : Nat} {next : Draft}
    (hfits : Fits expansion bytes (type, core))
    (h : Embeds site type sharing core bytes draft next start) :
    draft.frontier.offset ≤ next.frontier.offset ∧
      BitRange.Packed (8 * draft.frontier.offset) (8 * next.frontier.offset)
        ((expansion type).core.map (.shift start)) := by
  rcases Nat.eq_zero_or_pos core.dataSize with hempty | hfilled
  · obtain ⟨rfl, hoffset⟩ := h.empty hempty
    have hnil : (expansion type).core = [] := by
      have hpacked := hfits.packed
      rw [hempty] at hpacked
      exact hpacked.eq_nil
    rw [hnil]
    exact ⟨hoffset.ge, .nil _ _⟩
  · obtain ⟨hstart, hoffset⟩ := h.filled hfilled
    have hle := le_roundUp draft.frontier.offset (site.granted core.align)
    have hroom := hfits.room
    dsimp only at hroom
    refine ⟨by omega, (hfits.packed.shift start).mono (by omega) ?_⟩
    dsimp only
    omega

lemma embedAll_occupies (hfits : ∀ base ∈ cores, Fits expansion (bytes base) base)
    (h : draft.embedAll site sharing bytes cores = .ok last) :
    ∃ bases, last.bases = draft.bases ++ bases ∧
      draft.frontier.offset ≤ last.frontier.offset ∧
      BitRange.Packed (8 * draft.frontier.offset) (8 * last.frontier.offset)
        (PlacedBase.ranges expansion bases) := by
  induction cores generalizing draft with
  | nil =>
    cases h
    exact ⟨[], (List.append_nil _).symm, le_refl _, .nil _ _⟩
  | cons base cores ih =>
    obtain ⟨next, hnext, h⟩ := foldlM_cons_eq_ok.mp h
    obtain ⟨start, hembeds⟩ := embed_eq_ok hnext
    obtain ⟨hhead, htail⟩ := List.forall_mem_cons.mp hfits
    obtain ⟨hgrows, hpacked⟩ := embed_occupies hhead hembeds
    obtain ⟨bases, hbases, hgrows', hrest⟩ := ih htail h
    refine ⟨_ :: bases, by rw [hbases, hembeds.bases, List.append_assoc]; rfl,
      hgrows.trans hgrows', ?_⟩
    rw [PlacedBase.ranges, List.flatMap_cons]
    exact hpacked.append hrest (Nat.mul_le_mul_left 8 hgrows) (Nat.mul_le_mul_left 8 hgrows')

/-- A slot was there before or is brought by a base that has one, with its data. -/
lemma embedAll_dispatch (hfits : ∀ base ∈ cores, Fits expansion (bytes base) base)
    (h : draft.embedAll site sharing bytes cores = .ok last) :
    last.dispatch.isSome =
        (draft.dispatch.isSome || cores.any fun base => base.2.dispatch.isSome) ∧
      ((draft.dispatch.isSome → 0 < draft.frontier.offset) →
        last.dispatch.isSome → 0 < last.frontier.offset) := by
  induction cores generalizing draft with
  | nil =>
    cases h
    simp
  | cons base cores ih =>
    obtain ⟨next, hnext, h⟩ := foldlM_cons_eq_ok.mp h
    obtain ⟨start, hembeds⟩ := embed_eq_ok hnext
    obtain ⟨hhead, htail⟩ := List.forall_mem_cons.mp hfits
    obtain ⟨hsome, hdata⟩ := ih htail h
    have hbrings : base.2.brings sharing = base.2.dispatch := by
      rcases Nat.eq_zero_or_pos base.2.dataSize with hempty | hfilled
      · have hnone : base.2.dispatch = none :=
          Option.not_isSome_iff_eq_none.mp fun hslot => by
            have := hhead.slotData hslot
            omega
        simp [Core.brings, hnone]
      · exact Core.brings_of_pos hfilled sharing
    refine ⟨?_, fun hbefore => hdata fun hslot => ?_⟩
    · rw [hsome, hembeds.dispatch, hbrings, List.any_cons, Option.isSome_or, Option.isSome_map,
        Bool.or_assoc]
    · rw [hembeds.dispatch, hbrings, Option.isSome_or, Option.isSome_map, Bool.or_eq_true] at hslot
      have hgrows := (embed_occupies hhead hembeds).1
      rcases hslot with hslot | hslot
      · exact (hbefore hslot).trans_le hgrows
      · have hfilled := hhead.slotData hslot
        obtain ⟨-, hoffset⟩ := hembeds.filled hfilled
        have hroom := hhead.room
        omega

end Draft

namespace Composite

variable {target : Target} {isPod : TypeId → Bool} {part : TypeId → Except Rejection Placed}
  {c : Composite} {placed : Placed} {expansion : TypeId → Expansion}

/-- Owned bases take at least their data under either policy. -/
lemma dataSize_le_ownedBytes (target : Target) (isPod : TypeId → Bool) {base : TypeId × Core}
    (h : base.2.dataSize ≤ base.2.size) : base.2.dataSize ≤ ownedBytes target isPod base := by
  unfold ownedBytes
  cases target.tailPadding with
  | keep => exact h
  | reuse =>
    dsimp only
    split
    · exact h
    · exact le_refl _

/-- A slot that the type opens is the first of its data. -/
lemma openSlot_occupies {owned : List (TypeId × Core)} {opened : Draft}
    (hpointer : 0 < target.pointerSize) (h : c.openSlot target owned = .ok opened) :
    opened.dispatch.isSome = c.opensSlot owned ∧
      (opened.dispatch.isSome → 0 < opened.frontier.offset) ∧
      BitRange.Packed 0 (8 * opened.frontier.offset)
        (opened.dispatch.toList.map (BitRange.ofBytes · target.pointerSize)) := by
  rw [openSlot_eq_ok h]
  by_cases hopens : c.opensSlot owned = true
  · rw [if_pos hopens]
    refine ⟨hopens.symm, fun _ => Nat.add_pos_right _ hpointer,
      .singleton (Nat.zero_le _) ?_ (le_refl _)⟩
    simp only [BitRange.ofBytes]
    omega
  · rw [if_neg hopens]
    exact ⟨by simp [hopens], by simp, .nil _ _⟩

namespace Construction

/-- The owned bases bring a slot as their expansions say. -/
lemma inherited_eq (steps : Construction target isPod part c placed)
    (hparts : ∀ id p, id ∈ c.references → part id = .ok p → p.Occupied (expansion id)) :
    (c.ownedBases.any fun base => (expansion base.type).slot) =
      steps.owned.any fun base => base.2.dispatch.isSome := by
  have hslot : ∀ base ∈ c.ownedBases, ∀ core, Lends part base.type core →
      (expansion base.type).slot = core.2.dispatch.isSome := by
    rintro base hmem core ⟨p, hp, rfl⟩
    exact (hparts base.type p (mem_references_of_ownedBase hmem) hp).slot
  rw [Bool.eq_iff_iff, List.any_eq_true, List.any_eq_true]
  constructor
  · rintro ⟨base, hmem, h⟩
    obtain ⟨core, hcore, hlends⟩ := exists_of_mem_left steps.ownedLent hmem
    exact ⟨core, hcore, hslot base hmem core hlends ▸ h⟩
  · rintro ⟨core, hcore, h⟩
    obtain ⟨base, hmem, hlends⟩ := exists_of_mem_right steps.ownedLent hcore
    exact ⟨base, hmem, hslot base hmem core hlends ▸ h⟩

lemma owned_fits (steps : Construction target isPod part c placed)
    (hparts : ∀ id p, id ∈ c.references → part id = .ok p → p.Occupied (expansion id)) :
    ∀ base ∈ steps.owned, Draft.Fits expansion (ownedBytes target isPod base) base := by
  refine steps.forall_owned fun base hmem p hp => ?_
  have hpart := hparts base.type p (mem_references_of_ownedBase hmem) hp
  exact ⟨dataSize_le_ownedBytes target isPod hpart.coreSize, hpart.slotData, hpart.core⟩

lemma hoisted_fits (steps : Construction target isPod part c placed)
    (hparts : ∀ id p, id ∈ placed.shared → part id = .ok p → p.Occupied (expansion id)) :
    ∀ base ∈ steps.hoisted, Draft.Fits expansion base.2.size base := by
  refine steps.forall_hoisted fun id hmem p hp => ?_
  have hpart := hparts id p hmem hp
  exact ⟨hpart.coreSize, hpart.slotData, hpart.core⟩

/-- Every field and every owned base has its place. -/
theorem covers (steps : Construction target isPod part c placed) (hwell : c.WellFormed target) :
    placed.layout.Covers target c := by
  have hfields :=
    FieldGroup.placeAll_covers (FieldGroup.ofFields_valid hwell.fields) steps.fields
  rw [FieldGroup.flatMap_fields_ofFields] at hfields
  exact ⟨hfields, steps.bases_split.2.2.1⟩

/-- The slot that an expansion counts is the one opened, and no later base replaces it. -/
lemma slotRanges_eq (steps : Construction target isPod part c placed)
    (hparts : ∀ id p, id ∈ c.references ∨ id ∈ placed.shared → part id = .ok p →
      p.Occupied (expansion id)) (hpointer : 0 < target.pointerSize) :
    (if (c.introducesDispatch &&
        !c.ownedBases.any fun base => (expansion base.type).slot) = true
      then placed.layout.dispatch.toList.map (BitRange.ofBytes · target.pointerSize) else []) =
      steps.opened.dispatch.toList.map (BitRange.ofBytes · target.pointerSize) := by
  have hopens := (openSlot_occupies hpointer steps.slot).1
  rw [steps.inherited_eq fun id p hid => hparts id p (Or.inl hid), ← opensSlot, ← hopens]
  cases hdispatch : steps.opened.dispatch with
  | none => rfl
  | some offset =>
    have hbased := Draft.embedAll_keeps steps.bases hdispatch
    rw [steps.dispatch_eq, Draft.embedAll_keeps steps.shared hbased]
    rfl

/-- The slot, the owned bases and the fields follow one another. -/
lemma core_packed (steps : Construction target isPod part c placed)
    (hwell : c.WellFormed target) (hpointer : 0 < target.pointerSize)
    (hparts : ∀ id p, id ∈ c.references ∨ id ∈ placed.shared → part id = .ok p →
      p.Occupied (expansion id)) :
    (steps.based.dispatch.isSome → 0 < steps.frontier.offset) ∧
      BitRange.Packed 0 (8 * steps.frontier.offset)
        (c.expand target expansion placed.layout).core := by
  have howned := steps.owned_fits fun id p hid => hparts id p (Or.inl hid)
  obtain ⟨-, hslotData, hslot⟩ := openSlot_occupies hpointer steps.slot
  obtain ⟨bases, hbases, hgrows, hpacked⟩ := Draft.embedAll_occupies howned steps.bases
  have hfields := FieldGroup.placeAll_occupies (FieldGroup.ofFields_valid hwell.fields)
    hpointer (fun field hmem id htype p hp => hparts id p (Or.inl ?_) hp) steps.fields
  rotate_left
  · rw [FieldGroup.flatMap_fields_ofFields] at hmem
    exact mem_references_of_field hmem htype
  rw [FieldGroup.flatMap_fields_ofFields] at hfields
  refine ⟨fun hsome => ?_, ?_⟩
  · have hdata := (Draft.embedAll_dispatch howned steps.bases).2 hslotData hsome
    have hgrows := hfields.grows
    omega
  · rw [steps.opened_bases, List.nil_append, ← steps.bases_split.1] at hbases
    rw [expand]
    dsimp only
    rw [steps.slotRanges_eq hparts hpointer, hbases]
    exact (hslot.append hpacked (Nat.zero_le _) (Nat.mul_le_mul_left 8 hgrows)).append
      hfields.packed (Nat.zero_le _) hfields.grows

/-- The shared bases follow the core. -/
lemma complete_packed (steps : Construction target isPod part c placed)
    (hwell : c.WellFormed target) (hpointer : 0 < target.pointerSize)
    (hparts : ∀ id p, id ∈ c.references ∨ id ∈ placed.shared → part id = .ok p →
      p.Occupied (expansion id)) :
    BitRange.Packed 0 (8 * steps.complete.frontier.offset)
      (c.expand target expansion placed.layout).complete := by
  have hcore := (steps.core_packed hwell hpointer hparts).2
  obtain ⟨bases, hbases, hgrows, hpacked⟩ := Draft.embedAll_occupies
    (steps.hoisted_fits fun id p hid => hparts id p (Or.inr hid)) steps.shared
  have hshares : placed.layout.sharedBases = bases :=
    List.append_cancel_left (steps.bases_split.2.1.symm.trans hbases)
  simp only [forceAlign_offset] at hgrows hpacked
  rw [← hshares] at hpacked
  exact hcore.append hpacked (Nat.zero_le _) (Nat.mul_le_mul_left 8 hgrows)

/-- The steps of a placement keep the data of all parts apart. -/
theorem occupied (steps : Construction target isPod part c placed)
    (hwell : c.WellFormed target) (hpointer : 0 < target.pointerSize)
    (hparts : ∀ id p, id ∈ c.references ∨ id ∈ placed.shared → part id = .ok p →
      p.Occupied (expansion id)) :
    placed.Occupied (c.expand target expansion placed.layout) := by
  have howned := steps.owned_fits fun id p hid => hparts id p (Or.inl hid)
  obtain ⟨hslotData, hcore⟩ := steps.core_packed hwell hpointer hparts
  have hcomplete := steps.complete_packed hwell hpointer hparts
  have hslot : (c.expand target expansion placed.layout).slot = steps.based.dispatch.isSome := by
    rw [expand, steps.inherited_eq fun id p hid => hparts id p (Or.inl hid),
      (Draft.embedAll_dispatch howned steps.bases).1, (openSlot_occupies hpointer steps.slot).1]
    dsimp only [opensSlot]
    cases c.introducesDispatch <;> cases steps.owned.any _ <;> rfl
  have hcoreSize : steps.frontier.offset ≤ placed.core.size := by
    rw [steps.core]
    dsimp only
    split
    · next hempty => exact hempty.le
    · exact le_roundUp _ _
  constructor
  case slot => rw [hslot, steps.core]
  case slotData => rwa [steps.core]
  case core => rwa [steps.core]
  case complete => rwa [steps.dataSize_eq]
  case coreSize =>
    rw [steps.core] at hcoreSize ⊢
    exact hcoreSize
  case size =>
    rw [steps.dataSize_eq, steps.size_eq]
    exact (Nat.le_max_left _ _).trans (le_roundUp _ _)

end Construction

end Composite

namespace TypeTable

variable {table : TypeTable} {target : Target} {id : TypeId} {align : Nat} {placed : Placed}

/-- A placed type expands, and its data lies within what its placement states. -/
theorem exists_expandsTo (hpointer : 0 < target.pointerSize)
    (haccepted : table.Accepted target id align) (h : table.PlacedAs target id (.ok placed)) :
    ∃ expansion, table.ExpandsTo target id expansion ∧ placed.Occupied expansion := by
  induction h using PlacedAs.ok_induction generalizing align with
  | @step id placed c part h defined parts steps ih =>
    have hbelow : ∀ other, table.Below id other → ∃ expansion,
        table.ExpandsTo target other expansion ∧
          ∀ p, part other = .ok p → p.Occupied expansion := by
      intro other hother
      obtain ⟨p, hp⟩ := h.reaches haccepted hother.reaches
      obtain ⟨align', haccepted'⟩ := haccepted.reaches hother.reaches
      have hpart : part other = .ok p := (parts other hother).unique hp
      obtain ⟨expansion, hexpands, hoccupied⟩ := ih other hother p hpart haccepted'
      refine ⟨expansion, hexpands, fun p' hp' => ?_⟩
      obtain rfl : p = p' := Except.ok.inj (hpart.symm.trans hp')
      exact hoccupied
    choose! expansion hexpands hoccupied using hbelow
    have hwell := haccepted.wellFormed defined
    have hparts : ∀ other p, other ∈ c.references ∨ other ∈ placed.shared →
        part other = .ok p → p.Occupied (expansion other) := fun other p hother hp =>
      hoccupied other (h.below_of_part defined hother) p hp
    exact ⟨_, .intro expansion defined (layout_of_placedAs haccepted h) (steps.covers hwell)
      hexpands, steps.occupied hwell hpointer hparts⟩

/-- A layout has a place for every field and every owned base. -/
lemma layout_covers {c : Composite} {layout : Layout} (hc : table.get? id = some c)
    (h : table.layout target id = .ok layout) : layout.Covers target c := by
  obtain ⟨align, placed, haccepted, hplaced, rfl⟩ := layout_eq_ok h
  obtain ⟨c', part, hc', -, ⟨steps⟩⟩ := hplaced.construction
  obtain rfl := Option.some.inj (hc.symm.trans hc')
  exact steps.covers (haccepted.wellFormed hc)

/-- The data of a type depends on the data of the types below it only. -/
lemma expand_congr {c : Composite} {layout : Layout} {part part' : TypeId → Expansion}
    (href : ∀ id ∈ c.references, part id = part' id)
    (hbases : ∀ base ∈ layout.bases, part base.type = part' base.type) :
    c.expand target part layout = c.expand target part' layout := by
  have hinherited : (c.ownedBases.any fun base => (part base.type).slot) =
      c.ownedBases.any fun base => (part' base.type).slot := by
    rw [Bool.eq_iff_iff, List.any_eq_true, List.any_eq_true]
    refine exists_congr fun base => and_congr_right fun hmem => ?_
    rw [href _ (Composite.mem_references_of_ownedBase hmem)]
  have hranges : ∀ bases ⊆ layout.bases,
      PlacedBase.ranges part bases = PlacedBase.ranges part' bases := by
    intro bases hsub
    refine List.flatMap_congr fun base hmem => ?_
    rw [hbases base (hsub hmem)]
  have hfields : PlacedField.ranges part c.fields layout.fields =
      PlacedField.ranges part' c.fields layout.fields := by
    refine List.flatMap_congr fun entry hmem => ?_
    obtain ⟨hfield, -⟩ := List.of_mem_zip hmem
    exact Field.ranges_congr fun id htype =>
      href id (Composite.mem_references_of_field hfield htype)
  rw [Composite.expand, Composite.expand, hinherited, hfields,
    hranges layout.ownedBases List.filter_sublist.subset,
    hranges layout.sharedBases List.filter_sublist.subset]

theorem ExpandsTo.unique {expansion expansion' : Expansion}
    (h : table.ExpandsTo target id expansion) (h' : table.ExpandsTo target id expansion') :
    expansion = expansion' := by
  induction h generalizing expansion' with
  | @intro id c layout part defined laidOut _ parts ih =>
    cases h' with
    | @intro _ c' layout' part' defined' laidOut' _ parts' =>
      obtain rfl : c = c' := Option.some.inj (defined.symm.trans defined')
      obtain rfl : layout = layout' := Except.ok.inj (laidOut.symm.trans laidOut')
      have hsame : ∀ other, table.Below id other → part other = part' other :=
        fun other hbelow => ih other hbelow (parts' other hbelow)
      obtain ⟨align, placed, -, hplaced, rfl⟩ := layout_eq_ok laidOut
      exact expand_congr (fun other href => hsame other ((refers_iff defined).mpr href).below)
        fun base hmem => hsame base.type (hplaced.below_of_mem_bases hmem)

/-- However deep bases and members nest, the data of an object never overlaps and ends where the
layout says. -/
theorem layout_data_apart (table : TypeTable) (target : Target) (id : TypeId) (layout : Layout)
    (hpointer : target.pointerSize.isPowerOfTwo) (h : table.layout target id = .ok layout) :
    ∃ expansion, table.ExpandsTo target id expansion ∧
      (∀ other, table.ExpandsTo target id other → other = expansion) ∧
      expansion.complete.Pairwise BitRange.Apart ∧
      (∀ range ∈ expansion.complete,
        range.start < range.stop ∧ range.stop ≤ 8 * layout.dataSize) ∧
      layout.dataSize ≤ layout.size := by
  obtain ⟨align, placed, haccepted, hplaced, rfl⟩ := layout_eq_ok h
  obtain ⟨expansion, hexpands, hoccupied⟩ :=
    exists_expandsTo (Nat.pos_of_isPowerOfTwo hpointer) haccepted hplaced
  refine ⟨expansion, hexpands, fun other hother => hother.unique hexpands,
    hoccupied.complete.apart, fun range hmem => ?_, hoccupied.size⟩
  obtain ⟨-, hrange, hstop⟩ := hoccupied.complete.within range hmem
  exact ⟨hrange, hstop⟩

/-- A diamond: two owned bases share the first type, one of them adds bit-fields, and the last type
also has a member of the other one. -/
def diamond : TypeTable :=
  { entries := #[
      ⟨"Counted", some
        { name := "Counted", introducesDispatch := true
          fields := [{ name := "count", type := .int }] }⟩,
      ⟨"Tagged", some
        { name := "Tagged", bases := [{ type := ⟨0⟩, sharing := .shared }]
          fields := [{ name := "tag", type := .char }] }⟩,
      ⟨"Flagged", some
        { name := "Flagged", bases := [{ type := ⟨0⟩, sharing := .shared }]
          introducesDispatch := true
          fields := [{ name := "low", type := .int, bitWidth := some 7 },
            { name := "high", type := .int, bitWidth := some 20 }] }⟩,
      ⟨"Both", some
        { name := "Both", bases := [{ type := ⟨1⟩ }, { type := ⟨2⟩ }]
          fields := [{ name := "mark", type := .char }, { name := "next", type := .pointer },
            { name := "inner", type := .composite ⟨1⟩ }] }⟩] }

/-- The first field begins in the tail padding of the second owned base, whose span it shares. -/
theorem layout_data_apart_diamond :
    let target : Target := { Target.lp64 with tailPadding := .reuse }
    let layout : Layout :=
      { size := 72, align := 8, dataSize := 72, dispatch := some 8
        fields := [⟨"mark", 20, 1, none⟩, ⟨"next", 24, 8, none⟩, ⟨"inner", 32, 24, none⟩]
        bases := [⟨⟨1⟩, 0, 1, .owned⟩, ⟨⟨2⟩, 8, 16, .owned⟩, ⟨⟨0⟩, 56, 16, .shared⟩] }
    target.pointerSize.isPowerOfTwo ∧ diamond.layout target ⟨3⟩ = .ok layout ∧
      ∃ expansion, diamond.ExpandsTo target ⟨3⟩ expansion ∧
        (∀ other, diamond.ExpandsTo target ⟨3⟩ other → other = expansion) ∧
        expansion.complete.Pairwise BitRange.Apart ∧
        (∀ range ∈ expansion.complete,
          range.start < range.stop ∧ range.stop ≤ 8 * layout.dataSize) ∧
        layout.dataSize ≤ layout.size := by
  intro target layout
  have hpointer : target.pointerSize.isPowerOfTwo := by decide
  have hlayout : diamond.layout target ⟨3⟩ = .ok layout := by decide +kernel
  exact ⟨hpointer, hlayout, layout_data_apart diamond target ⟨3⟩ layout hpointer hlayout⟩

end TypeTable

end ObjectLayout
