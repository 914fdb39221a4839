import ObjectLayout.Proofs.PlacementWalk

/-!
# Two alignments of one type

Acceptance counts the whole alignment of every base and a dispatch slot wherever one is introduced;
placement counts the cores of owned bases, each shared base of the hierarchy, and a slot only where
one is opened. The two agree on everything below a type exactly when, at each type below, an
inherited slot is aligned as an opened one would be, and no shared base brings an alignment that the
clamp of a type in between has hidden from acceptance. Where they part, a forced alignment below
what placement gives is accepted, and one above it is rejected.
-/
namespace ObjectLayout

namespace Site

variable {site : Site} {align n : Nat}

lemma granted_le_iff :
    site.granted align ≤ n ↔ align ≤ n ∨ ∃ clamp ∈ site.packing, clamp ≤ n := by
  unfold granted
  cases site.packing with
  | none => simp
  | some clamp => simp

end Site

namespace FieldGroup

variable {target : Target} {part : TypeId → Except Rejection Placed} {align : TypeId → Nat}

/-- What the groups ask for is what the members require. -/
lemma aligns_iff {group : FieldGroup} (hvalid : group.Valid target)
    (hparts : ∀ field ∈ group.fields, ∀ id, field.type = .composite id →
      ∃ p, part id = .ok p ∧ p.layout.align = align id) {P : Nat → Prop} :
    (∀ bytes ∈ group.aligns (Composite.extent target part), P bytes) ↔
      ∀ field ∈ group.fields, field.isMarker = false → P (field.requiredAlign target align) := by
  cases group with
  | plain field =>
    obtain ⟨hbits, hfield⟩ := hvalid
    have hmarker : field.isMarker = false := by rw [Field.isMarker, hbits]; rfl
    have haligns : (FieldGroup.plain field).aligns (Composite.extent target part) =
        [field.requiredAlign target align] := by
      rw [aligns, Field.requiredAlign, max_comm]
      cases htype : field.type with
      | scalar size natural => simp [Composite.extent, Field.isBitField, hbits]
      | pointer => rfl
      | composite id =>
        obtain ⟨p, hp, heq⟩ := hparts field (List.mem_singleton_self field) id htype
        rw [Composite.extent, hp]
        dsimp only
        rw [← heq]
        rfl
    simp [haligns, fields, hmarker]
  | marker field =>
    have hmarker : field.isMarker = true := by rw [Field.isMarker, hvalid.1]; rfl
    simp [aligns, fields, hmarker]
  | run unit fields =>
    obtain ⟨hunit, hne, hfields⟩ := hvalid
    have hrequired : ∀ field ∈ fields, field.isMarker = false ∧
        field.requiredAlign target align = unit := by
      intro field hmem
      obtain ⟨hsame, ⟨width, hbits⟩, hfield⟩ := hfields field hmem
      obtain ⟨⟨natural, htype⟩, -⟩ := hfield.storageUnit (by rw [hbits]; rfl)
      have hforced := (hfield.bits _ hbits).1
      refine ⟨by simp [Field.isMarker, hbits], ?_⟩
      simp only [Field.requiredAlign, hforced, htype, Field.isBitField, hbits, Option.isSome_some,
        if_true, hsame, Option.getD_none]
      omega
    simp only [aligns, List.mem_singleton, forall_eq]
    constructor
    · intro hP field hmem _
      rwa [(hrequired field hmem).2]
    · intro hall
      obtain ⟨field, hmem⟩ := List.exists_mem_of_ne_nil _ hne
      have hP := hall field hmem (hrequired field hmem).1
      rwa [(hrequired field hmem).2] at hP

end FieldGroup

namespace Composite

variable {target : Target} {isPod : TypeId → Bool} {part : TypeId → Except Rejection Placed}
  {c : Composite} {placed : Placed} {align : TypeId → Nat} {n : Nat}

/-- The alignment that acceptance gives is the largest granted to any part, or the forced one. -/
lemma WellFormed.finalAlign_le_iff (hwell : c.WellFormed target)
    (hforced : ∀ forced ∈ c.forcedAlign, c.requiredAlign target align ≤ forced) :
    c.finalAlign (c.requiredAlign target align) ≤ n ↔ 1 ≤ n ∧
      (c.introducesDispatch = true → (c.site target).granted target.pointerSize ≤ n) ∧
      (∀ base ∈ c.bases, (c.site target).granted (align base.type) ≤ n) ∧
      (∀ field ∈ c.members, (c.site target).granted (field.requiredAlign target align) ≤ n) ∧
      ∀ forced ∈ c.forcedAlign, forced ≤ n := by
  cases hf : c.forcedAlign with
  | some forced =>
    have hpacking : c.packing = none := by
      rcases hwell.exclusive with hnone | hnone
      · rw [hf] at hnone
        cases hnone
      · exact hnone
    have hrequired := requiredAlign_le_iff.mp (hforced forced hf)
    simp only [finalAlign, hf, Site.granted, site, hpacking, Option.mem_def, Option.some.injEq,
      forall_eq']
    refine ⟨fun hle => ⟨hrequired.1.trans hle, fun hslot => (hrequired.2.1 hslot).trans hle,
      fun base hmem => (hrequired.2.2.1 base hmem).trans hle,
      fun field hmem => (hrequired.2.2.2 field hmem).trans hle, hle⟩, fun h => h.2.2.2.2⟩
  | none =>
    cases hpacking : c.packing with
    | none =>
      simp only [finalAlign, hf, hpacking, Site.granted, site, requiredAlign_le_iff,
        Option.mem_def, reduceCtorEq, false_imp_iff, implies_true, and_true]
    | some clamp =>
      have hclamp := Nat.pos_of_isPowerOfTwo (hwell.packing clamp hpacking)
      simp only [finalAlign, hf, hpacking, Site.granted, site, min_le_iff, requiredAlign_le_iff,
        Option.mem_def, reduceCtorEq, false_imp_iff, implies_true, and_true]
      by_cases hle : clamp ≤ n
      · simp only [hle, or_true, implies_true, and_true, true_iff]
        omega
      · simp only [hle, or_false]

/-- The groups of all fields ask for what the members require. -/
lemma WellFormed.aligns_iff (hwell : c.WellFormed target)
    (hreferences : ∀ id ∈ c.references, ∃ p, part id = .ok p ∧ p.layout.align = align id)
    {P : Nat → Prop} :
    (∀ group ∈ FieldGroup.ofFields c.fields, ∀ bytes ∈ group.aligns (extent target part), P bytes) ↔
      ∀ field ∈ c.members, P (field.requiredAlign target align) := by
  have hin : ∀ group ∈ FieldGroup.ofFields c.fields, ∀ field ∈ group.fields,
      field ∈ c.fields := by
    intro group hgroup field hmem
    rw [← FieldGroup.flatMap_fields_ofFields c.fields]
    exact List.mem_flatMap.mpr ⟨group, hgroup, hmem⟩
  have hgroups : ∀ group ∈ FieldGroup.ofFields c.fields,
      (∀ bytes ∈ group.aligns (extent target part), P bytes) ↔
        ∀ field ∈ group.fields, field.isMarker = false →
          P (field.requiredAlign target align) :=
    fun group hgroup => FieldGroup.aligns_iff
      (FieldGroup.ofFields_valid hwell.fields group hgroup)
      fun field hmem id htype => hreferences id
        (mem_references_of_field (hin group hgroup field hmem) htype)
  constructor
  · intro hall field hmem
    obtain ⟨hfield, hmarker⟩ := List.mem_filter.mp hmem
    rw [← FieldGroup.flatMap_fields_ofFields c.fields] at hfield
    obtain ⟨group, hgroup, hfield⟩ := List.mem_flatMap.mp hfield
    exact (hgroups group hgroup).mp (hall group hgroup) field hfield (by simpa using hmarker)
  · intro hall group hgroup
    refine (hgroups group hgroup).mpr fun field hfield hmarker => hall field ?_
    exact List.mem_filter.mpr ⟨hin group hgroup field hfield, by simp [hmarker]⟩

namespace Construction

/-- The slot and the owned bases count for the alignment by what is granted to them. -/
lemma based_align_le_iff (steps : Construction target isPod part c placed) :
    steps.based.frontier.align ≤ n ↔ 1 ≤ n ∧
      (c.opensSlot steps.owned = true → (c.site target).granted target.pointerSize ≤ n) ∧
      ∀ base ∈ c.ownedBases, ∀ p, part base.type = .ok p →
        (c.site target).granted p.core.align ≤ n := by
  have hopened : steps.opened.frontier.align ≤ n ↔ 1 ≤ n ∧
      (c.opensSlot steps.owned = true → (c.site target).granted target.pointerSize ≤ n) := by
    rw [openSlot_eq_ok steps.slot]
    cases c.opensSlot steps.owned <;> simp
  have howned : (∀ base ∈ steps.owned, (c.site target).granted base.2.align ≤ n) ↔
      ∀ base ∈ c.ownedBases, ∀ p, part base.type = .ok p →
        (c.site target).granted p.core.align ≤ n := by
    constructor
    · intro hall base hmem p hp
      obtain ⟨core, hcore, p', hp', rfl⟩ := exists_of_mem_left steps.ownedLent hmem
      obtain rfl : p = p' := Except.ok.inj (hp.symm.trans hp')
      exact hall _ hcore
    · exact fun hall => steps.forall_owned hall
  rw [Draft.embedAll_align_le_iff steps.bases, hopened, howned, and_assoc]

lemma based_align_le (steps : Construction target isPod part c placed) :
    steps.based.frontier.align ≤ placed.core.align := by
  rw [steps.core]
  exact ((FieldGroup.placeAll_align_le_iff steps.fields).mp (le_refl _)).1.trans
    (forceAlign_align_le_iff.mp (le_refl _)).1

/-- The alignment of a core is the largest granted to any part of it. -/
lemma core_align_le_iff (steps : Construction target isPod part c placed)
    (hwell : c.WellFormed target)
    (hreferences : ∀ id ∈ c.references, ∃ p, part id = .ok p ∧ p.layout.align = align id) :
    placed.core.align ≤ n ↔ 1 ≤ n ∧
      (c.opensSlot steps.owned = true → (c.site target).granted target.pointerSize ≤ n) ∧
      (∀ base ∈ c.ownedBases, ∀ p, part base.type = .ok p →
        (c.site target).granted p.core.align ≤ n) ∧
      (∀ field ∈ c.members, (c.site target).granted (field.requiredAlign target align) ≤ n) ∧
      ∀ forced ∈ c.forcedAlign, forced ≤ n := by
  rw [steps.core, forceAlign_align_le_iff, FieldGroup.placeAll_align_le_iff steps.fields,
    steps.based_align_le_iff, hwell.aligns_iff hreferences (P := fun bytes =>
      (c.site target).granted bytes ≤ n)]
  simp only [and_assoc]

/-- A complete object adds the alignments granted to the cores of its shared bases. -/
lemma align_le_iff (steps : Construction target isPod part c placed) :
    placed.layout.align ≤ n ↔ placed.core.align ≤ n ∧ ∀ id ∈ placed.shared, ∀ p,
      part id = .ok p → (c.site target).granted p.core.align ≤ n := by
  rw [steps.align_eq, Draft.embedAll_align_le_iff steps.shared, steps.core]
  refine and_congr_right fun _ => ?_
  constructor
  · intro hall id hmem p hp
    obtain ⟨core, hcore, p', hp', rfl⟩ := exists_of_mem_left steps.hoistedLent hmem
    obtain rfl : p = p' := Except.ok.inj (hp.symm.trans hp')
    exact hall _ hcore
  · exact fun hall => steps.forall_hoisted hall

end Construction

end Composite

namespace TypeTable

variable {table : TypeTable} {target : Target} {id : TypeId} {placed below : Placed} {n : Nat}

namespace PlacedAs

lemma core_align_le (h : table.PlacedAs target id (.ok placed)) :
    placed.core.align ≤ placed.layout.align := by
  obtain ⟨c, part, -, -, ⟨steps⟩⟩ := h.construction
  exact (steps.align_le_iff.mp (le_refl _)).1

/-- A bound that is granted to the core and to all shared bases is granted to the whole. -/
lemma granted_align_le {site : Site} (h : table.PlacedAs target id (.ok placed))
    (hcore : site.granted placed.core.align ≤ n)
    (hshared : ∀ shared ∈ placed.shared, ∀ p, table.PlacedAs target shared (.ok p) →
      site.granted p.core.align ≤ n) : site.granted placed.layout.align ≤ n := by
  by_cases hclamp : ∃ clamp ∈ site.packing, clamp ≤ n
  · exact Site.granted_le_iff.mpr (Or.inr hclamp)
  simp only [Site.granted_le_iff, hclamp, or_false] at hcore hshared ⊢
  obtain ⟨c, part, -, parts, ⟨steps⟩⟩ := h.construction
  refine steps.align_le_iff.mpr ⟨hcore, fun shared hmem p hp => ?_⟩
  exact (Site.granted_le _ _).trans
    (hshared shared hmem p (hp ▸ parts shared (h.below_of_mem_shared hmem)))

/-- The shared bases of a base, or of a shared base, are shared bases of the whole. -/
lemma shared_subset (h : table.PlacedAs target id (.ok placed)) {part : TypeId}
    (hpart : table.PlacedAs target part (.ok below))
    (hmem : part ∈ placed.shared ∨ ∃ c, table.get? id = some c ∧ part ∈ c.bases.map Base.type) :
    below.shared ⊆ placed.shared := by
  induction h using ok_induction with
  | @step id placed c place h defined parts steps ih =>
    -- It is enough to find the type among the bases or their shared bases.
    have hfind : ∃ base ∈ c.bases, ∃ p, place base.type = .ok p ∧
        (base.type = part ∨ part ∈ p.shared) := by
      rcases hmem with hmem | ⟨c', hc, hmem⟩
      · obtain ⟨base, hbase, p, hp, hcase⟩ := (Composite.mem_hoisted steps.collected).mp hmem
        exact ⟨base, hbase, p, hp, hcase.imp_left And.right⟩
      · obtain rfl : c = c' := Option.some.inj (defined.symm.trans hc)
        obtain ⟨base, hbase, htype⟩ := List.mem_map.mp hmem
        obtain ⟨p, hp⟩ := (Composite.foldlM_hoisted steps.collected).1 base hbase
        exact ⟨base, hbase, p, hp, Or.inl htype⟩
    obtain ⟨base, hbase, p, hp, hcase⟩ := hfind
    have hrefers : table.Refers id base.type :=
      (refers_iff defined).mpr (Composite.mem_references_of_base hbase)
    intro shared hshared
    refine (Composite.mem_hoisted steps.collected).mpr ⟨base, hbase, p, hp, Or.inr ?_⟩
    rcases hcase with rfl | hin
    · obtain rfl : p = below := Except.ok.inj ((hp ▸ parts _ hrefers.below).unique hpart)
      exact hshared
    · exact ih base.type hrefers.below p hp (Or.inl hin) hshared

/-- A layout has at least the alignment granted to the core of each of its shared bases. -/
lemma shared_core_align_le (h : table.PlacedAs target id (.ok placed)) {c : Composite}
    (hc : table.get? id = some c) {shared : TypeId} (hmem : shared ∈ placed.shared)
    (hbelow : table.PlacedAs target shared (.ok below)) :
    (c.site target).granted below.core.align ≤ placed.layout.align := by
  obtain ⟨c', part, defined, parts, ⟨steps⟩⟩ := h.construction
  obtain rfl : c = c' := Option.some.inj (hc.symm.trans defined)
  exact (steps.align_le_iff.mp (le_refl _)).2 shared hmem below
    ((parts shared (h.below_of_mem_shared hmem)).unique hbelow)

/-- A layout has at least the alignment granted to the whole of each of its shared bases. -/
lemma shared_align_le (h : table.PlacedAs target id (.ok placed)) {c : Composite}
    (hc : table.get? id = some c) {shared : TypeId} (hmem : shared ∈ placed.shared)
    (hbelow : table.PlacedAs target shared (.ok below)) :
    (c.site target).granted below.layout.align ≤ placed.layout.align :=
  hbelow.granted_align_le (h.shared_core_align_le hc hmem hbelow) fun _ hin _ hplaced =>
    h.shared_core_align_le hc (h.shared_subset hbelow (Or.inl hmem) hin) hplaced

/-- A layout has at least the alignment granted to the whole of each base, shared or not. -/
lemma base_align_le (h : table.PlacedAs target id (.ok placed)) {c : Composite}
    (hc : table.get? id = some c) {base : Base} (hmem : base ∈ c.bases)
    (hbelow : table.PlacedAs target base.type (.ok below)) :
    (c.site target).granted below.layout.align ≤ placed.layout.align := by
  refine hbelow.granted_align_le ?_ fun _ hin _ hplaced => h.shared_core_align_le hc
    (h.shared_subset hbelow (Or.inr ⟨c, hc, List.mem_map_of_mem hmem⟩) hin) hplaced
  obtain ⟨c', part, defined, parts, ⟨steps⟩⟩ := h.construction
  obtain rfl : c = c' := Option.some.inj (hc.symm.trans defined)
  have hpart : part base.type = .ok below :=
    (parts _ ((refers_iff hc).mpr (Composite.mem_references_of_base hmem)).below).unique hbelow
  by_cases hshared : base.isShared = true
  · exact h.shared_core_align_le hc ((Composite.mem_hoisted steps.collected).mpr
      ⟨base, hmem, below, hpart, Or.inl ⟨hshared, rfl⟩⟩) hbelow
  · have howned : base ∈ c.ownedBases := List.mem_filter.mpr ⟨hmem, by simpa using hshared⟩
    obtain ⟨-, -, hbases⟩ := steps.based_align_le_iff.mp (le_refl _)
    exact ((hbases base howned below hpart).trans steps.based_align_le).trans h.core_align_le

end PlacedAs

/-- At this type nothing is lost and nothing is added: a slot that it introduces is aligned as its
own would be, and acceptance has counted what every shared base of the layout asks for. -/
structure KeepsAlign (table : TypeTable) (target : Target) (id : TypeId) : Prop where
  slot : ∀ c layout, table.get? id = some c → table.layout target id = .ok layout →
    c.introducesDispatch = true → (c.site target).granted target.pointerSize ≤ layout.align
  shared : ∀ c layout final, table.get? id = some c → table.layout target id = .ok layout →
    table.FinalAlign target id final → ∀ base ∈ layout.sharedBases, ∀ whole,
      table.layout target base.type = .ok whole → (c.site target).granted whole.align ≤ final

/-- Acceptance and placement side by side, where the alignments of all types below agree. -/
lemma exists_compared {align : Nat} (haccepted : table.Accepted target id align)
    (hplaced : table.PlacedAs target id (.ok placed))
    (hbelow : ∀ part, table.Below id part → ∀ a p, table.Accepted target part a →
      table.PlacedAs target part (.ok p) → p.layout.align = a) :
    ∃ c part, ∃ aligns : TypeId → Nat, table.get? id = some c ∧ c.WellFormed target ∧
      (∀ forced ∈ c.forcedAlign, c.requiredAlign target aligns ≤ forced) ∧
      align = c.finalAlign (c.requiredAlign target aligns) ∧
      (∀ other, table.Below id other → table.PlacedAs target other (part other)) ∧
      (∀ other ∈ c.references, ∃ p, part other = .ok p ∧ p.layout.align = aligns other) ∧
      Nonempty (Composite.Construction target table.isPod part c placed) := by
  obtain ⟨c, part, defined, parts, ⟨steps⟩⟩ := hplaced.construction
  cases haccepted with
  | @intro _ c' aligns defined' hwell partsAccepted hforced =>
    obtain rfl : c = c' := Option.some.inj (defined.symm.trans defined')
    refine ⟨c, part, aligns, defined, hwell, hforced, rfl, parts, fun other hmem => ?_, ⟨steps⟩⟩
    obtain ⟨p, hp⟩ := steps.references_ok hwell other hmem
    have hother := ((refers_iff defined).mpr hmem).below
    exact ⟨p, hp, hbelow other hother _ p (partsAccepted other hmem) (hp ▸ parts other hother)⟩

section Step

variable {align : Nat}

/-- Placement loses only the slot that acceptance counts and that is inherited instead. -/
lemma le_align_iff (haccepted : table.Accepted target id align)
    (hplaced : table.PlacedAs target id (.ok placed))
    (hbelow : ∀ part, table.Below id part → ∀ a p, table.Accepted target part a →
      table.PlacedAs target part (.ok p) → p.layout.align = a) {c : Composite}
    (hc : table.get? id = some c) :
    align ≤ placed.layout.align ↔
      (c.introducesDispatch = true →
        (c.site target).granted target.pointerSize ≤ placed.layout.align) := by
  obtain ⟨c', part, aligns, defined, hwell, hforced, rfl, parts, hparts, ⟨steps⟩⟩ :=
    exists_compared haccepted hplaced hbelow
  obtain rfl : c = c' := Option.some.inj (hc.symm.trans defined)
  obtain ⟨hone, -, -, hmembers, hdirective⟩ :=
    (steps.core_align_le_iff hwell hparts).mp hplaced.core_align_le
  rw [hwell.finalAlign_le_iff hforced]
  refine ⟨fun h => h.2.1, fun hslot => ⟨hone, hslot, fun base hmem => ?_, hmembers, hdirective⟩⟩
  have href := Composite.mem_references_of_base hmem
  obtain ⟨p, hp, halign⟩ := hparts base.type href
  rw [← halign]
  exact hplaced.base_align_le hc hmem (hp ▸ parts base.type ((refers_iff hc).mpr href).below)

/-- Placement gains only what shared bases bring past the clamps of the types in between. -/
lemma align_le_iff (haccepted : table.Accepted target id align)
    (hplaced : table.PlacedAs target id (.ok placed))
    (hbelow : ∀ part, table.Below id part → ∀ a p, table.Accepted target part a →
      table.PlacedAs target part (.ok p) → p.layout.align = a) {c : Composite}
    (hc : table.get? id = some c) :
    placed.layout.align ≤ align ↔
      ∀ shared ∈ placed.shared, ∀ p, table.PlacedAs target shared (.ok p) →
        (c.site target).granted p.core.align ≤ align := by
  refine ⟨fun h _ hmem _ hp => (hplaced.shared_core_align_le hc hmem hp).trans h, fun hshared => ?_⟩
  obtain ⟨c', part, aligns, defined, hwell, hforced, rfl, parts, hparts, ⟨steps⟩⟩ :=
    exists_compared haccepted hplaced hbelow
  obtain rfl : c = c' := Option.some.inj (hc.symm.trans defined)
  obtain ⟨hone, hslot, hbases, hmembers, hdirective⟩ :=
    (hwell.finalAlign_le_iff hforced).mp (le_refl _)
  refine steps.align_le_iff.mpr ⟨(steps.core_align_le_iff hwell hparts).mpr
    ⟨hone, fun hopens => hslot (Bool.and_eq_true_iff.mp hopens).1, ?_, hmembers, hdirective⟩, ?_⟩
  · intro base hmem p hp
    have hbase := List.mem_of_mem_filter hmem
    have href := Composite.mem_references_of_base hbase
    have hle := (hp ▸ parts base.type ((refers_iff hc).mpr href).below).core_align_le
    obtain ⟨p', hp', halign⟩ := hparts base.type href
    obtain rfl : p = p' := Except.ok.inj (hp.symm.trans hp')
    rw [halign] at hle
    exact (Site.granted_mono _ hle).trans (hbases base hbase)
  · intro shared hmem p hp
    exact hshared shared hmem p (hp ▸ parts shared (hplaced.below_of_mem_shared hmem))

/-- What keeping alignments says about a type that is accepted and placed. -/
lemma keepsAlign_iff (haccepted : table.Accepted target id align)
    (hplaced : table.PlacedAs target id (.ok placed)) {c : Composite}
    (hc : table.get? id = some c) :
    table.KeepsAlign target id ↔
      (c.introducesDispatch = true →
        (c.site target).granted target.pointerSize ≤ placed.layout.align) ∧
      ∀ shared ∈ placed.shared, ∀ p, table.PlacedAs target shared (.ok p) →
        (c.site target).granted p.layout.align ≤ align := by
  have hlayout := layout_of_placedAs haccepted hplaced
  have hmapShared : placed.layout.sharedBases.map PlacedBase.type = placed.shared := by
    obtain ⟨_, _, -, -, ⟨steps⟩⟩ := hplaced.construction
    exact steps.bases_split.2.2.2
  constructor
  · intro h
    refine ⟨h.slot c _ hc hlayout, fun shared hmem p hp => ?_⟩
    obtain ⟨a, ha⟩ := haccepted.reaches (hplaced.below_of_mem_shared hmem).reaches
    rw [← hmapShared] at hmem
    obtain ⟨base, hbase, rfl⟩ := List.mem_map.mp hmem
    exact h.shared c _ align hc hlayout haccepted.finalAlign base hbase _ (layout_of_placedAs ha hp)
  · rintro ⟨hslot, hshared⟩
    constructor
    · intro c' layout hc' hok
      obtain rfl : c = c' := Option.some.inj (hc.symm.trans hc')
      obtain rfl : placed.layout = layout := Except.ok.inj (hlayout.symm.trans hok)
      exact hslot
    · intro c' layout final hc' hok hfinal base hmem whole hwhole
      obtain rfl : c = c' := Option.some.inj (hc.symm.trans hc')
      obtain rfl : placed.layout = layout := Except.ok.inj (hlayout.symm.trans hok)
      obtain rfl := haccepted.finalAlign.unique hfinal
      obtain ⟨a, p, -, hp, rfl⟩ := layout_eq_ok hwhole
      exact hshared base.type (hmapShared ▸ List.mem_map_of_mem hmem) p hp

/-- One step: where the alignments below agree, those of the type agree exactly if it keeps them. -/
theorem align_eq_iff (haccepted : table.Accepted target id align)
    (hplaced : table.PlacedAs target id (.ok placed))
    (hbelow : ∀ part, table.Below id part → ∀ a p, table.Accepted target part a →
      table.PlacedAs target part (.ok p) → p.layout.align = a) :
    placed.layout.align = align ↔ table.KeepsAlign target id := by
  obtain ⟨c, hc⟩ := hplaced.get?
  rw [keepsAlign_iff haccepted hplaced hc, ← le_align_iff haccepted hplaced hbelow hc]
  constructor
  · rintro rfl
    exact ⟨le_refl _, fun shared hmem p hp => hplaced.shared_align_le hc hmem hp⟩
  · rintro ⟨hle, hshared⟩
    refine le_antisymm ((align_le_iff haccepted hplaced hbelow hc).mpr ?_) hle
    intro shared hmem p hp
    exact (Site.granted_mono _ hp.core_align_le).trans (hshared shared hmem p hp)

end Step

/-- After any questions, acceptance gives and remembers the alignment that the layout has. -/
def AlignAgrees (table : TypeTable) (target : Target) (id : TypeId) : Prop :=
  ∃ layout, table.layout target id = .ok layout ∧ ∀ questions, ∃ memo,
    (table.accept target id).run (table.acceptedAfter target questions) =
      .ok layout.align memo ∧ memo.get? id = some layout.align

lemma alignAgrees_iff {align : Nat} (haccepted : table.Accepted target id align)
    (hplaced : table.PlacedAs target id (.ok placed)) :
    table.AlignAgrees target id ↔ placed.layout.align = align := by
  have hlayout := layout_of_placedAs haccepted hplaced
  constructor
  · rintro ⟨layout, hok, hall⟩
    obtain rfl : placed.layout = layout := Except.ok.inj (hlayout.symm.trans hok)
    obtain ⟨memo, hrun, -⟩ := hall []
    have hexplained := accept_explained (acceptedAfter_inOrder table target []) id
    rw [hrun] at hexplained
    exact hexplained.1.unique haccepted
  · rintro rfl
    refine ⟨placed.layout, hlayout, fun questions => ?_⟩
    have hexplained := accept_explained (acceptedAfter_inOrder table target questions) id
    have hanswer := haccepted.answer_eq hexplained
    cases hrun : (table.accept target id).run (table.acceptedAfter target questions) with
    | error rejection memo =>
      rw [hrun] at hanswer
      cases hanswer
    | ok found memo =>
      rw [hrun] at hanswer hexplained
      obtain rfl : found = placed.layout.align := Except.ok.inj hanswer
      exact ⟨memo, rfl, hexplained.2.1⟩

/-- Where all types below agree, a type agrees exactly if it keeps their alignments. -/
lemma alignAgrees_iff_keepsAlign {align : Nat} (haccepted : table.Accepted target id align)
    (hplaced : table.PlacedAs target id (.ok placed))
    (hbelow : ∀ part, table.Below id part → table.AlignAgrees target part) :
    table.AlignAgrees target id ↔ table.KeepsAlign target id := by
  rw [alignAgrees_iff haccepted hplaced]
  exact align_eq_iff haccepted hplaced fun part hpart a p ha hp =>
    (alignAgrees_iff ha hp).mp (hbelow part hpart)

/-- If every type of a laid-out hierarchy keeps alignments once those below it agree, all agree. -/
lemma alignAgrees_of_step {align : Nat} (haccepted : table.Accepted target id align)
    (hplaced : table.PlacedAs target id (.ok placed))
    (hstep : ∀ part, table.Reaches id part →
      (∀ other, table.Below part other → table.AlignAgrees target other) →
        table.KeepsAlign target part) :
    ∀ part, table.Reaches id part → table.AlignAgrees target part := by
  intro part hreach
  obtain ⟨a, ha⟩ := haccepted.reaches hreach
  induction Acc.transGen ha.acyclic generalizing a with
  | intro part _ ih =>
    have hbelow : ∀ other, table.Below part other → table.AlignAgrees target other := by
      intro other hother
      have hreach' := hreach.trans hother.reaches
      obtain ⟨b, hb⟩ := haccepted.reaches hreach'
      exact ih other (Relation.transGen_swap.mpr hother) hreach' b hb
    obtain ⟨p, hp⟩ := hplaced.reaches haccepted hreach
    exact (alignAgrees_iff_keepsAlign ha hp hbelow).mpr (hstep part hreach hbelow)

/-- The alignments of all types below agree exactly if each of these types keeps them. -/
theorem alignAgrees_reaches_iff {align : Nat} (haccepted : table.Accepted target id align)
    (hplaced : table.PlacedAs target id (.ok placed)) :
    (∀ part, table.Reaches id part → table.AlignAgrees target part) ↔
      ∀ part, table.Reaches id part → table.KeepsAlign target part := by
  constructor
  · intro hall part hreach
    obtain ⟨a, ha⟩ := haccepted.reaches hreach
    obtain ⟨p, hp⟩ := hplaced.reaches haccepted hreach
    exact (alignAgrees_iff_keepsAlign ha hp fun other hother =>
      hall other (hreach.trans hother.reaches)).mp (hall part hreach)
  · intro hkeeps
    exact alignAgrees_of_step haccepted hplaced fun part hreach _ => hkeeps part hreach

section Unpacked

/-- No type that is reached has a packing clamp. -/
def Unpacked (table : TypeTable) (id : TypeId) : Prop :=
  ∀ part, table.Reaches id part → ∀ c, table.get? part = some c → c.packing = none

lemma Unpacked.reaches (h : table.Unpacked id) {part : TypeId} (hreach : table.Reaches id part) :
    table.Unpacked part :=
  fun other hother => h other (hreach.trans hother)

lemma Unpacked.granted (h : table.Unpacked id) {c : Composite} (hc : table.get? id = some c)
    (align : Nat) : (c.site target).granted align = align := by
  rw [Site.granted, Composite.site, h id (.refl table id) c hc]

/-- Without clamps a slot, own or inherited, gives the core at least the alignment of pointers. -/
lemma Unpacked.pointerSize_le (hunpacked : table.Unpacked id)
    (h : table.PlacedAs target id (.ok placed)) {c : Composite} (hc : table.get? id = some c)
    (hslot : c.introducesDispatch = true ∨ placed.core.dispatch.isSome) :
    target.pointerSize ≤ placed.core.align := by
  induction h using PlacedAs.ok_induction generalizing c with
  | @step id placed c' part h defined parts steps ih =>
    obtain rfl : c = c' := Option.some.inj (hc.symm.trans defined)
    obtain ⟨-, hopens, howned⟩ := steps.based_align_le_iff.mp (le_refl _)
    rw [hunpacked.granted hc] at hopens
    -- The slot is opened here or comes from an owned base.
    have hsource : c.opensSlot steps.owned = true ∨
        ∃ base ∈ steps.owned, base.2.dispatch.isSome := by
      rcases hslot with hintroduces | hsome
      · rw [Composite.opensSlot, hintroduces, Bool.true_and, Bool.not_eq_true', ← List.any_eq_true]
        exact (Bool.eq_false_or_eq_true _).symm
      · rw [steps.core] at hsome
        rcases Draft.isSome_dispatch_of_embedAll steps.bases hsome with hopened | hbase
        · rw [Composite.openSlot_eq_ok steps.slot] at hopened
          by_cases hopens : c.opensSlot steps.owned = true
          · exact Or.inl hopens
          · simp [hopens] at hopened
        · exact Or.inr hbase
    rcases hsource with hopen | ⟨core, hcore, hsome⟩
    · exact (hopens hopen).trans steps.based_align_le
    · obtain ⟨base, hmem, p, hp, rfl⟩ := exists_of_mem_right steps.ownedLent hcore
      have hrefers : table.Refers id base.type :=
        (refers_iff hc).mpr (Composite.mem_references_of_ownedBase hmem)
      have hbelow := hp ▸ parts base.type hrefers.below
      obtain ⟨cBase, hcBase⟩ := hbelow.get?
      have hle := howned base hmem p hp
      rw [hunpacked.granted hc] at hle
      exact ((ih base.type hrefers.below p hp (hunpacked.reaches hrefers.below.reaches) hcBase
        (Or.inr hsome)).trans hle).trans steps.based_align_le

/-- Without clamps acceptance gives a type at least the alignment of every type that it reaches. -/
lemma Unpacked.accepted_le {align align' : Nat} {part : TypeId} (hunpacked : table.Unpacked id)
    (h : table.Accepted target id align) (hreach : table.Reaches id part)
    (h' : table.Accepted target part align') : align' ≤ align := by
  induction hreach using Relation.ReflTransGen.head_induction_on generalizing align with
  | refl => exact (h'.unique h).le
  | @head id next hrefers hreach ih =>
    cases h with
    | @intro _ c align defined hwell parts hforced =>
      have href := (refers_iff defined).mp hrefers
      have hrequired := hwell.align_le_requiredAlign align href
      have hfinal : c.requiredAlign target align ≤
          c.finalAlign (c.requiredAlign target align) := by
        rw [Composite.finalAlign, hunpacked id (.refl table id) c defined]
        cases hf : c.forcedAlign with
        | none => exact le_refl _
        | some forced => exact hforced forced hf
      exact (ih (hunpacked.reaches hrefers.below.reaches) (parts next href)).trans
        (hrequired.trans hfinal)

/-- Without clamps all alignments agree. -/
theorem Unpacked.alignAgrees {align : Nat} (hunpacked : table.Unpacked id)
    (haccepted : table.Accepted target id align) (hplaced : table.PlacedAs target id (.ok placed)) :
    ∀ part, table.Reaches id part → table.AlignAgrees target part := by
  refine alignAgrees_of_step haccepted hplaced fun part hreach hbelow => ?_
  have hpart := hunpacked.reaches hreach
  obtain ⟨a, ha⟩ := haccepted.reaches hreach
  obtain ⟨p, hp⟩ := hplaced.reaches haccepted hreach
  obtain ⟨c, hc⟩ := hp.get?
  refine (keepsAlign_iff ha hp hc).mpr ⟨fun hslot => ?_, fun shared hmem q hq => ?_⟩
  · rw [hpart.granted hc]
    exact (hpart.pointerSize_le hp hc (Or.inl hslot)).trans hp.core_align_le
  · have hshared := hp.below_of_mem_shared hmem
    obtain ⟨b, hb⟩ := ha.reaches hshared.reaches
    rw [hpart.granted hc, (alignAgrees_iff hb hq).mp (hbelow shared hshared)]
    exact hpart.accepted_le ha hshared.reaches hb

end Unpacked

/-- The table with another description of a type. -/
def redefine (table : TypeTable) (id : TypeId) (c : Composite) : TypeTable :=
  ⟨table.entries.setIfInBounds id.index ⟨c.name, some c⟩⟩

lemma get?_redefine_self {c old : Composite} (h : table.get? id = some old) :
    (table.redefine id c).get? id = some c := by
  have hlt : id.index < table.entries.size := lt_size_of_get? h
  simp [redefine, get?, entry?, hlt]

lemma get?_redefine_of_ne {c : Composite} {other : TypeId} (h : other ≠ id) :
    (table.redefine id c).get? other = table.get? other := by
  have hindex : id.index ≠ other.index := fun heq => h (TypeId.ext_index heq.symm)
  simp [redefine, get?, entry?, hindex]

/-- An alignment depends only on the descriptions of the types that are reached. -/
lemma FinalAlign.congr {table' : TypeTable} {align : Nat} (h : table.FinalAlign target id align)
    (hsame : ∀ part, table.Reaches id part → table'.get? part = table.get? part) :
    table'.FinalAlign target id align := by
  induction h with
  | @intro id c align defined _ ih =>
    refine .intro align ((hsame id (.refl table id)).trans defined) fun part hmem => ?_
    have hrefers : table.Refers id part := (refers_iff defined).mpr hmem
    exact ih part hmem fun other hother => hsame other (hrefers.below.reaches.trans hother)

lemma FinalAlign.acyclic {align : Nat} (h : table.FinalAlign target id align) :
    table.Acyclic id := by
  induction h with
  | intro align defined _ ih =>
    exact Acc.intro _ fun part hpart => ih part ((refers_iff defined).mp hpart)

/-- Without its forced alignment a type has the alignment that its parts require. -/
lemma Requires.finalAlign_redefine {c : Composite} {required : Nat} (hc : table.get? id = some c)
    (hpacking : c.packing = none) (h : table.Requires target id required) :
    (table.redefine id { c with forcedAlign := none }).FinalAlign target id required := by
  obtain ⟨c', align, hc', hparts, rfl⟩ := h
  obtain rfl : c = c' := Option.some.inj (hc.symm.trans hc')
  have hacyclic : table.Acyclic id := Acc.intro id fun part hpart =>
    (hparts part ((refers_iff hc).mp hpart)).acyclic
  have hfree : ({ c with forcedAlign := none } : Composite).finalAlign
      (({ c with forcedAlign := none } : Composite).requiredAlign target align) =
      c.requiredAlign target align := by
    rw [Composite.finalAlign, hpacking]
    rfl
  rw [← hfree]
  refine .intro align (get?_redefine_self hc) fun part hmem => (hparts part hmem).congr ?_
  -- The type is not met again below itself, so nothing that is reached has changed.
  intro other hother
  refine get?_redefine_of_ne fun heq => hacyclic.not_below ?_
  exact .of_refers_reaches ((refers_iff hc).mpr hmem) (heq ▸ hother)

/-- A shared base below two types with a forced alignment, one that holds and one that is too
small. -/
def overaligned : TypeTable :=
  { entries := #[
      ⟨"Counted", some
        { name := "Counted", introducesDispatch := true
          fields := [{ name := "count", type := .int }] }⟩,
      ⟨"Tagged", some
        { name := "Tagged", bases := [{ type := ⟨0⟩, sharing := .shared }]
          introducesDispatch := true }⟩,
      ⟨"Wide", some { name := "Wide", bases := [{ type := ⟨1⟩ }], forcedAlign := some 32 }⟩,
      ⟨"Narrow", some { name := "Narrow", bases := [{ type := ⟨1⟩ }], forcedAlign := some 4 }⟩] }

/-- A clamp hides the alignment of a shared base from the acceptance of the type above. -/
def clampedBase : TypeTable :=
  { entries := #[
      ⟨"Wide", some { name := "Wide", fields := [{ name := "value", type := .longLong }] }⟩,
      ⟨"Clamped", some
        { name := "Clamped", bases := [{ type := ⟨0⟩, sharing := .shared }]
          packing := some 1 }⟩,
      ⟨"Forced", some { name := "Forced", bases := [{ type := ⟨1⟩ }], forcedAlign := some 2 }⟩] }

/-- A slot that is inherited from a clamped type does not need the alignment of pointers. -/
def clampedSlot (forced : Option Nat) : TypeTable :=
  { entries := #[
      ⟨"Clamped", some { name := "Clamped", introducesDispatch := true, packing := some 1 }⟩,
      ⟨"Forced", some
        { name := "Forced", bases := [{ type := ⟨0⟩ }], introducesDispatch := true
          forcedAlign := forced }⟩] }

end TypeTable

end ObjectLayout
