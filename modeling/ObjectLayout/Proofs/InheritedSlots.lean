import ObjectLayout.Proofs.SpansApart

/-!
# Inherited dispatch slots

A type that needs a dispatch slot opens one only if no base lends it one. The lender is the first
direct owned base whose core has a slot, or else the first shared base of the hierarchy whose core
has one. A core has a slot exactly when the type, or a type that it owns along some path, introduces
dispatch; a base behind a shared edge lends its slot through the last such edge of the path to it.
So a layout has a slot exactly when the type or some transitive base introduces dispatch.
-/
namespace ObjectLayout

/-- The types of the shared bases, in the order of the layout. -/
def Layout.sharedTypes (layout : Layout) : List TypeId := layout.sharedBases.map PlacedBase.type

namespace Draft

variable {site : Site} {draft last : Draft} {sharing : Sharing} {bytes : TypeId × Core → Nat}
  {cores : List (TypeId × Core)} {slot : TypeId → Option Nat}

/-- The slot of the first base that has one, counted from the start of the whole. -/
def firstSlot (slot : TypeId → Option Nat) (bases : List PlacedBase) : Option Nat :=
  bases.findSome? fun base => (slot base.type).map (base.offset + ·)

/-- A draft without a slot takes that of the first core that has one. -/
lemma embedAll_firstSlot (h : draft.embedAll site sharing bytes cores = .ok last)
    (hslot : ∀ core ∈ cores, slot core.1 = core.2.dispatch ∧
      (core.2.dispatch.isSome → 0 < core.2.dataSize)) :
    ∃ bases, last.bases = draft.bases ++ bases ∧
      last.dispatch = draft.dispatch.or (firstSlot slot bases) := by
  induction cores generalizing draft with
  | nil =>
    cases h
    exact ⟨[], by simp, by simp [firstSlot]⟩
  | cons core cores ih =>
    obtain ⟨next, hnext, h⟩ := foldlM_cons_eq_ok.mp h
    obtain ⟨start, hembeds⟩ := embed_eq_ok hnext
    obtain ⟨⟨hsame, hdata⟩, htail⟩ := List.forall_mem_cons.mp hslot
    obtain ⟨bases, hbases, hdispatch⟩ := ih h htail
    refine ⟨_ :: bases, by rw [hbases, hembeds.bases, List.append_assoc]; rfl, ?_⟩
    rw [hdispatch, hembeds.dispatch, Core.brings_of_isSome hdata, Option.or_assoc]
    congr 1
    cases hinner : core.2.dispatch <;> simp [firstSlot, hsame, hinner]

lemma firstSlot_eq_none_iff {bases : List PlacedBase} :
    firstSlot slot bases = none ↔ ∀ base ∈ bases, slot base.type = none := by
  simp [firstSlot, List.findSome?_eq_none_iff]

/-- The first slot is that of a base behind others without one. -/
lemma firstSlot_eq_some {bases : List PlacedBase} {offset : Nat}
    (h : firstSlot slot bases = some offset) :
    ∃ before base after inner, bases = before ++ base :: after ∧ slot base.type = some inner ∧
      offset = base.offset + inner ∧ ∀ other ∈ before, slot other.type = none := by
  obtain ⟨before, base, after, hsplit, hbase, hbefore⟩ := List.findSome?_eq_some_iff.mp h
  obtain ⟨inner, hinner, rfl⟩ := Option.map_eq_some_iff.mp hbase
  exact ⟨before, base, after, inner, hsplit, hinner, rfl,
    fun other hmem => Option.map_eq_none_iff.mp (hbefore other hmem)⟩

end Draft

namespace Composite

variable {target : Target} {isPod : TypeId → Bool} {part : TypeId → Except Rejection Placed}
  {c : Composite} {placed : Placed}

/-- What a walk over the bases meets, once each: every direct base with a shared edge, and behind
every direct base the shared bases of its own hierarchy, which `inner` lists. -/
def hoistOrder (inner : TypeId → List TypeId) (bases : List Base) : List TypeId :=
  FirstSeen.noteAll [] (bases.flatMap fun base =>
    (if base.isShared then [base.type] else []) ++ inner base.type)

lemma foldlM_hoisted_eq {inner : TypeId → List TypeId} {bases : List Base}
    {seen last : List TypeId}
    (h : bases.foldlM (fun seen base => do
      let placed ← part base.type
      let met := if base.isShared then FirstSeen.note seen base.type else seen
      return FirstSeen.noteAll met placed.shared) seen = .ok last)
    (hinner : ∀ base ∈ bases, ∀ p, part base.type = .ok p → inner base.type = p.shared) :
    last = FirstSeen.noteAll seen (bases.flatMap fun base =>
      (if base.isShared then [base.type] else []) ++ inner base.type) := by
  induction bases generalizing seen with
  | nil =>
    cases h
    rfl
  | cons base bases ih =>
    obtain ⟨next, hnext, h⟩ := foldlM_cons_eq_ok.mp h
    obtain ⟨p, hp, hnext⟩ := bind_eq_ok.mp hnext
    cases hnext
    obtain ⟨hfirst, hrest⟩ := List.forall_mem_cons.mp hinner
    rw [ih h hrest, List.flatMap_cons, hfirst p hp]
    simp only [FirstSeen.noteAll, List.foldl_append]
    split <;> rfl

/-- Shared bases are hoisted in the order of the walk. -/
lemma hoisted_eq_hoistOrder {inner : TypeId → List TypeId} {shared : List TypeId}
    (h : c.hoisted part = .ok shared)
    (hinner : ∀ base ∈ c.bases, ∀ p, part base.type = .ok p → inner base.type = p.shared) :
    shared = hoistOrder inner c.bases := foldlM_hoisted_eq h hinner

/-- The slot that a type would lend as a base. -/
def lentSlot (part : TypeId → Except Rejection Placed) (id : TypeId) : Option Nat :=
  match part id with
  | .ok placed => placed.core.dispatch
  | .error _ => none

lemma lentSlot_of_ok {id : TypeId} {p : Placed} (h : part id = .ok p) :
    lentSlot part id = p.core.dispatch := by simp [lentSlot, h]

namespace Construction

variable {steps : Construction target isPod part c placed}

/-- An owned base brings a slot as its core says. -/
lemma any_owned_dispatch (steps : Construction target isPod part c placed) :
    (steps.owned.any fun core => core.2.dispatch.isSome) =
      c.ownedBases.any fun base => (lentSlot part base.type).isSome := by
  rw [Bool.eq_iff_iff, List.any_eq_true, List.any_eq_true]
  constructor
  · rintro ⟨core, hcore, hsome⟩
    obtain ⟨base, hbase, p, hp, rfl⟩ := exists_of_mem_right steps.ownedLent hcore
    exact ⟨base, hbase, by rw [lentSlot_of_ok hp]; exact hsome⟩
  · rintro ⟨base, hbase, hsome⟩
    obtain ⟨core, hcore, p, hp, rfl⟩ := exists_of_mem_left steps.ownedLent hbase
    exact ⟨_, hcore, by rw [lentSlot_of_ok hp] at hsome; exact hsome⟩

/-- An owned base of the type has a place in the layout. -/
lemma exists_listed (steps : Construction target isPod part c placed) {base : Base}
    (h : base ∈ c.ownedBases) : ∃ listed ∈ placed.layout.ownedBases, listed.type = base.type := by
  have hlisted : base.type ∈ placed.layout.ownedBases.map PlacedBase.type := by
    rw [steps.bases_split.2.2.1]
    exact List.mem_map_of_mem h
  exact List.mem_map.mp hlisted

/-- The slot of the core: the one opened, or else that of the first owned base that has one. -/
lemma PartsRegular.core_dispatch (h : steps.PartsRegular)
    (hpointer : 0 < target.pointerSize) :
    placed.core.dispatch = steps.opened.dispatch.or
      (Draft.firstSlot (lentSlot part) placed.layout.ownedBases) := by
  have hslot : ∀ core ∈ steps.owned, lentSlot part core.1 = core.2.dispatch ∧
      (core.2.dispatch.isSome → 0 < core.2.dataSize) := fun core hcore =>
    ⟨steps.forall_owned (P := fun core => lentSlot part core.1 = core.2.dispatch)
      (fun base _ p hp => lentSlot_of_ok hp) core hcore,
      (Core.Regular.dataSize_pos (h.owned core hcore) hpointer ·)⟩
  obtain ⟨bases, hbases, hdispatch⟩ := Draft.embedAll_firstSlot steps.bases hslot
  rw [steps.opened_bases, List.nil_append] at hbases
  rw [steps.core, steps.bases_split.1, hbases]
  exact hdispatch

/-- The slot of the layout: that of the core, or else that of the first shared base that has one. -/
lemma PartsRegular.layout_dispatch (h : steps.PartsRegular)
    (hpointer : 0 < target.pointerSize) :
    placed.layout.dispatch = placed.core.dispatch.or
      (Draft.firstSlot (lentSlot part) placed.layout.sharedBases) := by
  have hslot : ∀ core ∈ steps.hoisted, lentSlot part core.1 = core.2.dispatch ∧
      (core.2.dispatch.isSome → 0 < core.2.dataSize) := fun core hcore =>
    ⟨steps.forall_hoisted (P := fun core => lentSlot part core.1 = core.2.dispatch)
      (fun id _ p hp => lentSlot_of_ok hp) core hcore,
      (Core.Regular.dataSize_pos (h.hoisted core hcore) hpointer ·)⟩
  obtain ⟨bases, hbases, hdispatch⟩ := Draft.embedAll_firstSlot steps.shared hslot
  have hshared : placed.layout.sharedBases = bases :=
    List.append_cancel_left (steps.bases_split.2.1.symm.trans hbases)
  rw [steps.dispatch_eq, hdispatch, steps.core, hshared]

/-- A slot that the type opens lies at its start. -/
lemma opened_dispatch (steps : Construction target isPod part c placed) :
    steps.opened.dispatch = if c.opensSlot steps.owned then some 0 else none := by
  rw [openSlot_eq_ok steps.slot]
  split <;> simp

/-- A slot of the complete object ends before its data does. -/
lemma PartsRegular.slot_within (h : steps.PartsRegular) (hwell : c.WellFormed target) :
    ∀ slot ∈ placed.layout.dispatch, slot + target.pointerSize ≤ placed.layout.dataSize := by
  have hcore := (h.regular hwell).core.slot
  rw [steps.core] at hcore
  rw [steps.dispatch_eq, steps.dataSize_eq]
  refine Draft.embedAll_slot steps.shared h.hoisted
    (fun core hmem => (h.hoisted core hmem).dataSize_le_size) ?_
  simpa using hcore

end Construction

end Composite

namespace TypeTable

variable {table : TypeTable} {target : Target} {id part : TypeId} {c : Composite} {placed : Placed}
  {align : Nat}

/-- The type, or a type that it owns along some path, introduces dispatch. -/
def BringsSlot (table : TypeTable) (id : TypeId) : Prop :=
  ∃ part, table.Owns id part ∧ table.Introduces part

/-- What is owned along a path is owned by a direct base. -/
lemma OwnedPath.exists_ownedBase {path : List Nat} (h : table.OwnedPath id path part)
    (hc : table.get? id = some c) : ∃ base ∈ c.ownedBases, table.Owns base.type part := by
  obtain ⟨i, rest, base, -, hlisted, howned, hrest⟩ := (ownedPath_iff hc).mp h
  refine ⟨base, List.mem_filter.mpr ⟨List.mem_of_getElem? hlisted, by simp [howned]⟩, ?_⟩
  rcases hrest with ⟨-, rfl⟩ | hpath
  · exact Or.inl rfl
  · exact Or.inr ⟨rest, hpath⟩

/-- A type brings a slot if it introduces dispatch itself or an owned base brings a slot. -/
lemma bringsSlot_iff (hc : table.get? id = some c) :
    table.BringsSlot id ↔
      c.introducesDispatch = true ∨ ∃ base ∈ c.ownedBases, table.BringsSlot base.type := by
  constructor
  · rintro ⟨part, rfl | ⟨path, hpath⟩, hintroduces⟩
    · obtain ⟨c', hc', hdispatch⟩ := hintroduces
      obtain rfl : c = c' := Option.some.inj (hc.symm.trans hc')
      exact Or.inl hdispatch
    · obtain ⟨base, hbase, howns⟩ := hpath.exists_ownedBase hc
      exact Or.inr ⟨base, hbase, part, howns, hintroduces⟩
  · rintro (hdispatch | ⟨base, hbase, part, howns, hintroduces⟩)
    · exact ⟨id, Or.inl rfl, c, hc, hdispatch⟩
    · exact ⟨part, Or.inr (howns.of_ownedBase hc hbase), hintroduces⟩

lemma BringsSlot.exists_inherits (h : table.BringsSlot id) :
    ∃ part, (part = id ∨ table.Inherits id part) ∧ table.Introduces part := by
  obtain ⟨part, rfl | ⟨path, hpath⟩, hintroduces⟩ := h
  · exact ⟨_, Or.inl rfl, hintroduces⟩
  · exact ⟨part, Or.inr hpath.inherits, hintroduces⟩

namespace PlacedAs

/-- A core has a slot exactly when the type brings one. -/
theorem core_dispatch_iff (h : table.PlacedAs target id (.ok placed))
    (haccepted : table.Accepted target id align) (hpointer : 0 < target.pointerSize) :
    placed.core.dispatch.isSome ↔ table.BringsSlot id := by
  refine ⟨h.exists_introduces, fun hbrings => ?_⟩
  induction h using ok_induction generalizing align with
  | @step id placed c part h defined parts steps ih =>
    have hregular := h.partsRegular haccepted defined parts steps
    rw [hregular.core_dispatch hpointer, Option.isSome_or, steps.opened_dispatch]
    by_cases hopens : c.opensSlot steps.owned = true
    · simp [hopens]
    -- Without a slot of its own, the type has an owned base that brings one.
    obtain ⟨base, hbase, hslot⟩ : ∃ base ∈ c.ownedBases,
        (Composite.lentSlot part base.type).isSome := by
      rcases (bringsSlot_iff defined).mp hbrings with hdispatch | ⟨base, hbase, hinner⟩
      · rw [Composite.opensSlot, hdispatch, steps.any_owned_dispatch] at hopens
        simpa [Option.isSome_iff_ne_none] using hopens
      · obtain ⟨core, -, p, hp, -⟩ := exists_of_mem_left steps.ownedLent hbase
        have href := (refers_iff defined).mpr (Composite.mem_references_of_ownedBase hbase)
        obtain ⟨align', haccepted'⟩ := haccepted.refers href
        refine ⟨base, hbase, ?_⟩
        rw [Composite.lentSlot_of_ok hp]
        exact ih base.type href.below p hp haccepted' hinner
    obtain ⟨listed, hmem, htype⟩ := steps.exists_listed hbase
    have hsome : Draft.firstSlot (Composite.lentSlot part) placed.layout.ownedBases ≠ none := by
      intro hnone
      have := Draft.firstSlot_eq_none_iff.mp hnone listed hmem
      rw [htype] at this
      simp [this] at hslot
    simp [Option.isSome_iff_ne_none.mpr hsome]

/-- The shared bases of a hierarchy are transitive bases. -/
lemma inherits_of_mem_shared (h : table.PlacedAs target id (.ok placed)) {shared : TypeId}
    (hmem : shared ∈ placed.shared) : table.Inherits id shared := by
  induction h using ok_induction with
  | step h defined parts steps ih =>
    obtain ⟨base, hbase, p, hp, hcase⟩ := (Composite.mem_hoisted steps.collected).mp hmem
    have hinherits := Inherits.of_base defined hbase
    rcases hcase with ⟨-, rfl⟩ | hshared
    · exact hinherits
    · have hrefers := (refers_iff defined).mpr (Composite.mem_references_of_base hbase)
      exact hinherits.trans (ih base.type hrefers.below p hp hshared)

/-- A transitive base is owned along some path, or owned by a shared base of the hierarchy: the one
behind the last shared edge of a path to it. -/
theorem owned_or_shared (h : table.PlacedAs target id (.ok placed))
    (hinherits : table.Inherits id part) :
    (∃ path, table.OwnedPath id path part) ∨ ∃ shared ∈ placed.shared, table.Owns shared part := by
  induction h using ok_induction with
  | @step id placed c place h defined parts steps ih =>
    obtain ⟨base, hbase, hrest⟩ := (inherits_iff defined).mp hinherits
    obtain ⟨p, hp⟩ := (Composite.foldlM_hoisted steps.collected).1 base hbase
    have hrefers := (refers_iff defined).mpr (Composite.mem_references_of_base hbase)
    -- Below the base, either no edge is shared or the last shared edge is there.
    have hcases : table.Owns base.type part ∨ ∃ shared ∈ p.shared, table.Owns shared part := by
      rcases hrest with rfl | hrest
      · exact Or.inl (Or.inl rfl)
      · exact (ih base.type hrefers.below p hp hrest).imp_left Or.inr
    rcases hcases with howns | ⟨shared, hmem, howns⟩
    · cases hshared : base.isShared with
      | true =>
        refine Or.inr ⟨base.type, (Composite.mem_hoisted steps.collected).mpr ?_, howns⟩
        exact ⟨base, hbase, p, hp, Or.inl ⟨hshared, rfl⟩⟩
      | false =>
        have howned : base ∈ c.ownedBases := List.mem_filter.mpr ⟨hbase, by simp [hshared]⟩
        exact Or.inl (howns.of_ownedBase defined howned)
    · refine Or.inr ⟨shared, (Composite.mem_hoisted steps.collected).mpr ?_, howns⟩
      exact ⟨base, hbase, p, hp, Or.inr hmem⟩

/-- Some type of the hierarchy introduces dispatch exactly when the type or a shared base of the
hierarchy brings a slot. -/
lemma exists_introduces_iff (h : table.PlacedAs target id (.ok placed)) :
    (∃ part, (part = id ∨ table.Inherits id part) ∧ table.Introduces part) ↔
      table.BringsSlot id ∨ ∃ shared ∈ placed.shared, table.BringsSlot shared := by
  constructor
  · rintro ⟨part, rfl | hinherits, hintroduces⟩
    · exact Or.inl ⟨_, Or.inl rfl, hintroduces⟩
    · rcases h.owned_or_shared hinherits with hpath | ⟨shared, hmem, howns⟩
      · exact Or.inl ⟨part, Or.inr hpath, hintroduces⟩
      · exact Or.inr ⟨shared, hmem, part, howns, hintroduces⟩
  · rintro (hbrings | ⟨shared, hmem, hbrings⟩)
    · exact hbrings.exists_inherits
    · have hshared := h.inherits_of_mem_shared hmem
      obtain ⟨part, rfl | hpart, hintroduces⟩ := hbrings.exists_inherits
      · exact ⟨_, Or.inr hshared, hintroduces⟩
      · exact ⟨part, Or.inr (hshared.trans hpart), hintroduces⟩

/-- A core lends its slot as the slot of its complete object. -/
lemma layout_dispatch_of_core (h : table.PlacedAs target id (.ok placed)) {slot : Nat}
    (hslot : placed.core.dispatch = some slot) : placed.layout.dispatch = some slot := by
  obtain ⟨c, part, -, -, ⟨steps⟩⟩ := h.construction
  rw [steps.core] at hslot
  rw [steps.dispatch_eq]
  exact Draft.embedAll_keeps steps.shared hslot

end PlacedAs

lemma opensSlot_iff (hc : table.get? id = some c) : table.OpensSlot id ↔
    c.introducesDispatch = true ∧ ∀ base ∈ c.ownedBases, ¬ table.BringsSlot base.type := by
  constructor
  · rintro ⟨⟨c', hc', hintroduces⟩, hnone⟩
    obtain rfl : c = c' := Option.some.inj (hc.symm.trans hc')
    refine ⟨hintroduces, ?_⟩
    rintro base hbase ⟨part, howns, hpart⟩
    obtain ⟨path, hpath⟩ := howns.of_ownedBase hc hbase
    exact hnone path part hpath hpart
  · rintro ⟨hintroduces, hnone⟩
    refine ⟨⟨c, hc, hintroduces⟩, fun path part hpath hpart => ?_⟩
    obtain ⟨base, hbase, howns⟩ := hpath.exists_ownedBase hc
    exact hnone base hbase ⟨part, howns, hpart⟩

/-- A type that is placed with a slot of its own opens one. -/
lemma PlacedAs.opensSlot_of_opens {part : TypeId → Except Rejection Placed}
    (h : table.PlacedAs target id (.ok placed)) (haccepted : table.Accepted target id align)
    (hpointer : 0 < target.pointerSize) (hc : table.get? id = some c)
    (parts : ∀ other, table.Below id other → table.PlacedAs target other (part other))
    (steps : Composite.Construction target table.isPod part c placed)
    (hopens : c.opensSlot steps.owned = true) : table.OpensSlot id := by
  rw [Composite.opensSlot, Bool.and_eq_true, Bool.not_eq_true', List.any_eq_false] at hopens
  refine (opensSlot_iff hc).mpr ⟨hopens.1, fun base hbase hbrings => ?_⟩
  obtain ⟨core, hcore, p, hp, rfl⟩ := exists_of_mem_left steps.ownedLent hbase
  have hbelow := h.below_of_part hc (Or.inl (Composite.mem_references_of_ownedBase hbase))
  obtain ⟨align', haccepted'⟩ := haccepted.reaches hbelow.reaches
  have hplaced := hp ▸ parts base.type hbelow
  exact hopens.2 _ hcore ((hplaced.core_dispatch_iff haccepted' hpointer).mpr hbrings)

/-- `base` is the first of the listed bases that brings a slot. -/
def FirstBearer (table : TypeTable) (bases : List PlacedBase) (base : PlacedBase) : Prop :=
  ∃ before after, bases = before ++ base :: after ∧ table.BringsSlot base.type ∧
    ∀ other ∈ before, ¬ table.BringsSlot other.type

/-- The layout lists the shared bases as a walk over the hierarchy meets them. -/
def Hoists (table : TypeTable) (target : Target) (c : Composite) (layout : Layout) : Prop :=
  ∃ inner : TypeId → Layout,
    (∀ base ∈ c.bases, table.layout target base.type = .ok (inner base.type)) ∧
      layout.sharedTypes = Composite.hoistOrder (fun id => (inner id).sharedTypes) c.bases

lemma PlacedAs.hoists (h : table.PlacedAs target id (.ok placed))
    (haccepted : table.Accepted target id align) (hc : table.get? id = some c) :
    table.Hoists target c placed.layout := by
  obtain ⟨c', part, defined, parts, ⟨steps⟩⟩ := h.construction
  obtain rfl : c = c' := Option.some.inj (hc.symm.trans defined)
  have hbase : ∀ base ∈ c.bases, ∀ p, part base.type = .ok p →
      table.layout target base.type = .ok p.layout ∧ p.layout.sharedTypes = p.shared := by
    intro base hmem p hp
    have href := (refers_iff defined).mpr (Composite.mem_references_of_base hmem)
    obtain ⟨align', haccepted'⟩ := haccepted.refers href
    have hplaced := hp ▸ parts base.type href.below
    obtain ⟨_, _, -, -, ⟨inner⟩⟩ := hplaced.construction
    exact ⟨layout_of_placedAs haccepted' hplaced, inner.bases_split.2.2.2⟩
  refine ⟨fun id => (table.layout target id).toOption.getD placed.layout, ?_, ?_⟩
  · intro base hmem
    obtain ⟨p, hp⟩ := (Composite.foldlM_hoisted steps.collected).1 base hmem
    simp [(hbase base hmem p hp).1, Except.toOption]
  · rw [Layout.sharedTypes, steps.bases_split.2.2.2]
    refine Composite.hoisted_eq_hoistOrder steps.collected fun base hmem p hp => ?_
    obtain ⟨hlayout, hshared⟩ := hbase base hmem p hp
    simp [hlayout, hshared, Except.toOption]

/-- The slot of the layout is that of the base, where the base lies. -/
def Lends (table : TypeTable) (target : Target) (layout : Layout) (base : PlacedBase) : Prop :=
  ∃ inner slot, table.layout target base.type = .ok inner ∧ inner.dispatch = some slot ∧
    layout.dispatch = some (base.offset + slot)

/-- Where the slots of a placement come from: `opened` is the slot that the type opens, and `slot`
gives what each base lends. -/
structure SlotSources (table : TypeTable) (target : Target) (id : TypeId) (placed : Placed)
    (opened : Option Nat) (slot : TypeId → Option Nat) : Prop where
  fresh : table.OpensSlot id → opened = some 0
  inherited : ¬ table.OpensSlot id → opened = none
  brings : ∀ base ∈ placed.layout.bases, (slot base.type).isSome ↔ table.BringsSlot base.type
  lends : ∀ base ∈ placed.layout.bases, ∀ offset, slot base.type = some offset →
    ∃ inner, table.layout target base.type = .ok inner ∧ inner.dispatch = some offset
  core : placed.core.dispatch = opened.or (Draft.firstSlot slot placed.layout.ownedBases)
  complete : placed.layout.dispatch =
    placed.core.dispatch.or (Draft.firstSlot slot placed.layout.sharedBases)

lemma PlacedAs.exists_slotSources (h : table.PlacedAs target id (.ok placed))
    (haccepted : table.Accepted target id align) (hpointer : 0 < target.pointerSize) :
    ∃ opened slot, table.SlotSources target id placed opened slot := by
  obtain ⟨c, part, defined, parts, ⟨steps⟩⟩ := h.construction
  have hwell := haccepted.wellFormed defined
  have hregular := h.partsRegular haccepted defined parts steps
  have hpart : ∀ base ∈ placed.layout.bases, ∃ p align, part base.type = .ok p ∧
      table.PlacedAs target base.type (.ok p) ∧ table.Accepted target base.type align := by
    intro base hmem
    obtain ⟨p, hp, -⟩ := hregular.base_within hwell hmem
    have hbelow := h.below_of_mem_bases hmem
    obtain ⟨align', haccepted'⟩ := haccepted.reaches hbelow.reaches
    exact ⟨p, align', hp, hp ▸ parts base.type hbelow, haccepted'⟩
  have hbrings : ∀ base ∈ placed.layout.bases,
      (Composite.lentSlot part base.type).isSome ↔ table.BringsSlot base.type := by
    intro base hmem
    obtain ⟨p, align', hp, hbase, haccepted'⟩ := hpart base hmem
    rw [Composite.lentSlot_of_ok hp]
    exact hbase.core_dispatch_iff haccepted' hpointer
  refine ⟨steps.opened.dispatch, Composite.lentSlot part, ?_, ?_, hbrings, ?_,
    hregular.core_dispatch hpointer, hregular.layout_dispatch hpointer⟩
  · intro hopens
    rw [steps.opened_dispatch, if_pos (hopens.opens defined parts steps)]
  · intro hnone
    rw [steps.opened_dispatch, if_neg]
    exact fun hopens => hnone (h.opensSlot_of_opens haccepted hpointer defined parts steps hopens)
  · intro base hmem offset hoffset
    obtain ⟨p, align', hp, hbase, haccepted'⟩ := hpart base hmem
    rw [Composite.lentSlot_of_ok hp] at hoffset
    exact ⟨p.layout, layout_of_placedAs haccepted' hbase, hbase.layout_dispatch_of_core hoffset⟩

namespace SlotSources

variable {opened : Option Nat} {slot : TypeId → Option Nat} {bases : List PlacedBase}

lemma firstSlot_eq_none (h : table.SlotSources target id placed opened slot)
    (hbases : bases ⊆ placed.layout.bases) :
    Draft.firstSlot slot bases = none ↔ ∀ base ∈ bases, ¬ table.BringsSlot base.type := by
  rw [Draft.firstSlot_eq_none_iff]
  apply forall₂_congr
  intro base hmem
  rw [← h.brings base (hbases hmem)]
  simp

/-- The first slot among the bases is lent by the first of them that brings one. -/
lemma exists_firstBearer (h : table.SlotSources target id placed opened slot)
    (hbases : bases ⊆ placed.layout.bases) {offset : Nat}
    (hfirst : Draft.firstSlot slot bases = some offset)
    (hslot : placed.layout.dispatch = some offset) :
    ∃ base, table.FirstBearer bases base ∧ table.Lends target placed.layout base := by
  obtain ⟨before, base, after, inner, rfl, hinner, rfl, hbefore⟩ := Draft.firstSlot_eq_some hfirst
  have hmem : base ∈ placed.layout.bases := hbases (by simp)
  obtain ⟨below, hbelow, hdispatch⟩ := h.lends base hmem inner hinner
  refine ⟨base, ⟨before, after, rfl, ?_, ?_⟩, below, inner, hbelow, hdispatch, hslot⟩
  · rw [← h.brings base hmem, hinner]
    rfl
  · intro other hother
    rw [← h.brings other (hbases (List.mem_append_left _ hother)), hbefore other hother]
    simp

end SlotSources

/-- A widget owns a plain record and a view; only the shape that the view shares introduces
dispatch. -/
def sharedSlot : TypeTable :=
  { entries := #[
      ⟨"Shape", some
        { name := "Shape", introducesDispatch := true
          fields := [{ name := "edges", type := .int }] }⟩,
      ⟨"Plain", some { name := "Plain", fields := [{ name := "count", type := .short }] }⟩,
      ⟨"View", some
        { name := "View", bases := [{ type := ⟨0⟩, sharing := .shared }]
          fields := [{ name := "zoom", type := .char }] }⟩,
      ⟨"Widget", some
        { name := "Widget", bases := [{ type := ⟨1⟩ }, { type := ⟨2⟩ }]
          fields := [{ name := "id", type := .int }] }⟩] }

/-- A type that only introduces dispatch, and one that owns it. -/
def bareSlot : TypeTable :=
  { entries := #[
      ⟨"Named", some { name := "Named", introducesDispatch := true }⟩,
      ⟨"Whole", some { name := "Whole", bases := [{ type := ⟨0⟩ }] }⟩] }

end TypeTable

end ObjectLayout
