import ObjectLayout.Proofs.ReportedSpans
import ObjectLayout.Proofs.StandardLayout

/-!
# Spans apart

Where every owned base keeps its tail padding, no two spans of a layout overlap, but for bit-fields
in one storage unit, and all end with the data. Where tail padding is reused, a span may begin
behind the data of an owned base that is not plain old data; the whole span of such a base still
lies in the object, unless a packing clamp denies the base its alignment. A slot that the type opens
itself comes before everything else under either policy.
-/
namespace ObjectLayout

/-- Where no clamp is below an alignment, the alignment is granted. -/
lemma Site.granted_eq_self {site : Site} {align : Nat}
    (h : ∀ clamp ∈ site.packing, align ≤ clamp) : site.granted align = align := by
  unfold Site.granted
  split
  · next clamp hclamp => exact Nat.min_eq_left (h clamp hclamp)
  · rfl

/-- The slot lies before every span of the layout. -/
def Layout.SlotFirst (target : Target) (layout : Layout) : Prop :=
  ∃ slot, layout.dispatch = some slot ∧ slot + target.pointerSize ≤ layout.dataSize ∧
    ∀ span ∈ layout.spans, slot + target.pointerSize ≤ span.start

namespace Composite.Construction

variable {target : Target} {isPod : TypeId → Bool} {part : TypeId → Except Rejection Placed}
  {c : Composite} {placed : Placed} {steps : Construction target isPod part c placed}

/-- A slot that the type opens ends where the frontier stands before anything else is placed. -/
lemma opened_stop (steps : Construction target isPod part c placed)
    (hopens : c.opensSlot steps.owned = true) : ∃ slot, placed.layout.dispatch = some slot ∧
      slot + target.pointerSize = steps.opened.frontier.offset := by
  have hopened := openSlot_eq_ok steps.slot
  rw [if_pos hopens] at hopened
  obtain ⟨slot, hslot, hend⟩ : ∃ slot, steps.opened.dispatch = some slot ∧
      slot + target.pointerSize = steps.opened.frontier.offset :=
    ⟨_, by rw [hopened], by rw [hopened]⟩
  have hbased := Draft.embedAll_keeps steps.bases hslot
  exact ⟨slot, steps.dispatch_eq.trans (Draft.embedAll_keeps steps.shared hbased), hend⟩

/-- A slot that a type opens ends where everything else begins. -/
lemma PartsRegular.slotFirst (h : steps.PartsRegular) (hwell : c.WellFormed target)
    (hopens : c.opensSlot steps.owned = true) :
    placed.layout.SlotFirst target := by
  have hordered := h.ordered hwell
  obtain ⟨slot, hslot, hend⟩ := steps.opened_stop hopens
  have hcomplete := hordered.complete.offset
  rw [forceAlign_offset] at hcomplete
  refine ⟨slot, hslot, ?_, fun span hmem => ?_⟩
  · rw [hend, steps.dataSize_eq]
    exact (hordered.based.offset.trans hordered.fields.offset).trans hcomplete
  · rw [hend]
    exact ((h.spans_inOrder hwell).within span hmem).1

/-- A span has the room that it is reported for, unless it is that of an owned base that gives up
its tail padding. -/
lemma PartsRegular.room_eq (h : steps.PartsRegular) (hwell : c.WellFormed target)
    {span : Span} (hmem : span ∈ placed.layout.spans) :
    room target isPod part span = span.size ∨
      ∃ base p, span = .base base ∧ base ∈ placed.layout.ownedBases ∧
        target.tailPadding = .reuse ∧ isPod base.type = false ∧ part base.type = .ok p ∧
        room target isPod part span = p.core.dataSize := by
  simp only [Layout.spans, List.mem_append, List.mem_map, or_assoc] at hmem
  rcases hmem with ⟨base, hbase, rfl⟩ | hfield | ⟨base, hbase, rfl⟩
  · obtain ⟨p, hp, hbears⟩ := h.owned_bears hwell hbase
    have howned : base.sharing = .owned := by simpa using (List.mem_filter.mp hbase).2
    have hroom : room target isPod part (.base base) =
        ownedBytes target isPod (base.type, p.core) := by
      simp only [room, howned, hp]
    cases hpolicy : target.tailPadding with
    | keep =>
      refine Or.inl ?_
      rw [hroom, ownedBytes, hpolicy]
      exact hbears.size.symm
    | reuse =>
      rw [ownedBytes, hpolicy] at hroom
      cases hpod : isPod base.type with
      | true =>
        refine Or.inl ?_
        rw [hroom, hpod]
        exact hbears.size.symm
      | false =>
        rw [hpod] at hroom
        exact Or.inr ⟨base, p, rfl, hbase, rfl, hpod, hp, hroom⟩
  · obtain ⟨i, hi, rfl⟩ := Span.mem_numbered hfield
    exact Or.inl rfl
  · have hshared : base.sharing = .shared := by simpa using (List.mem_filter.mp hbase).2
    exact Or.inl (by simp only [room, hshared, Span.size])

/-- An owned base that is granted its alignment lies in the object with its tail padding. -/
lemma PartsRegular.owned_stop_le (h : steps.PartsRegular) (hwell : c.WellFormed target)
    (hpointer : target.pointerSize.isPowerOfTwo) {base : PlacedBase} {p : Placed}
    (hmem : base ∈ placed.layout.ownedBases) (hp : part base.type = .ok p)
    (hgranted : (c.site target).granted p.core.align = p.core.align) :
    base.offset + base.size ≤ placed.layout.size := by
  obtain ⟨p', hp', hbears⟩ := h.owned_bears hwell hmem
  obtain rfl : p = p' := Except.ok.inj (hp.symm.trans hp')
  have hplaced := h.regular hwell
  have hcore : p.core.Regular target :=
    (h base.type p (Or.inl (steps.mem_references_of_ownedBases hmem)) hp).core
  have hend : base.offset + p.core.dataSize ≤ placed.layout.size :=
    hbears.within.trans (hplaced.dataSize_le.trans hplaced.dataSize_le_size)
  have hsize : base.size = p.core.size := hbears.size
  rw [hsize, hcore.size]
  split
  · next hempty => rwa [hempty] at hend
  · next hfilled =>
    -- Both ends of the base are multiples of its alignment, and so is the size of the object.
    have hpower := hcore.align hpointer
    have hstart : p.core.align ∣ base.offset :=
      hgranted ▸ hbears.aligned (Nat.pos_of_ne_zero hfilled) (hgranted.symm ▸ hpower)
    have halign : p.core.align ∣ placed.layout.align := by
      refine dvd_of_isPowerOfTwo hpower (hplaced.align hpointer) ?_
      have hle := hbears.align_le
      rw [hgranted] at hle
      exact hle.trans hplaced.align_le
    have hwhole : p.core.align ∣ placed.layout.size := by
      rw [hplaced.size]
      exact halign.trans (dvd_roundUp (hplaced.align hpointer) _)
    have hround : roundUp p.core.dataSize p.core.align ≤ placed.layout.size - base.offset :=
      roundUp_le_of_dvd hpower (by omega) (Nat.dvd_sub hwhole hstart)
    omega

end Composite.Construction

namespace TypeTable

variable {table : TypeTable} {target : Target} {id : TypeId} {c : Composite} {placed : Placed}
  {align : Nat}

/-- A type that is laid out is put together from regular placements. -/
lemma exists_regular_construction {layout : Layout} (h : table.layout target id = .ok layout)
    (hc : table.get? id = some c) :
    c.WellFormed target ∧ ∃ placed part, table.PlacedAs target id (.ok placed) ∧
      placed.layout = layout ∧
      (∀ other, table.Below id other → table.PlacedAs target other (part other)) ∧
      ∃ steps : Composite.Construction target table.isPod part c placed, steps.PartsRegular := by
  obtain ⟨align, placed, haccepted, hplaced, rfl⟩ := layout_eq_ok h
  obtain ⟨c', part, defined, parts, ⟨steps⟩⟩ := hplaced.construction
  obtain rfl : c = c' := Option.some.inj (hc.symm.trans defined)
  have hwell := haccepted.wellFormed hc
  exact ⟨hwell, placed, part, hplaced, rfl, parts, steps,
    hplaced.partsRegular haccepted hc parts steps⟩

/-- The type declares dynamically dispatched methods. -/
def Introduces (table : TypeTable) (id : TypeId) : Prop :=
  ∃ c, table.get? id = some c ∧ c.introducesDispatch = true

/-- The type needs a dispatch slot, and no type owned along some path brings one. -/
def OpensSlot (table : TypeTable) (id : TypeId) : Prop :=
  table.Introduces id ∧ ∀ path part, table.OwnedPath id path part → ¬ table.Introduces part

/-- The slot of a core is that of a type owned along some path, or of the type itself. -/
theorem PlacedAs.exists_introduces (h : table.PlacedAs target id (.ok placed))
    (hslot : placed.core.dispatch.isSome) : ∃ part, table.Owns id part ∧ table.Introduces part := by
  induction h using ok_induction with
  | @step id placed c part h defined parts steps ih =>
    rw [steps.core] at hslot
    rcases Draft.isSome_dispatch_of_embedAll steps.bases hslot with hopened | ⟨core, hcore, hsome⟩
    · have hopens : c.opensSlot steps.owned = true := by
        by_contra hnone
        rw [Composite.openSlot_eq_ok steps.slot, if_neg hnone] at hopened
        cases hopened
      rw [Composite.opensSlot, Bool.and_eq_true] at hopens
      exact ⟨id, Or.inl rfl, c, defined, hopens.1⟩
    · obtain ⟨base, hbase, p, hp, rfl⟩ := exists_of_mem_right steps.ownedLent hcore
      have hbelow := h.below_of_part defined (Or.inl (Composite.mem_references_of_ownedBase hbase))
      obtain ⟨source, howns, hintroduces⟩ := ih base.type hbelow p hp hsome
      exact ⟨source, Or.inr (howns.of_ownedBase defined hbase), hintroduces⟩

lemma OpensSlot.opens {part : TypeId → Except Rejection Placed} (h : table.OpensSlot id)
    (hc : table.get? id = some c)
    (parts : ∀ other, table.Below id other → table.PlacedAs target other (part other))
    (steps : Composite.Construction target table.isPod part c placed) :
    c.opensSlot steps.owned = true := by
  obtain ⟨⟨c', hc', hintroduces⟩, hnone⟩ := h
  obtain rfl : c = c' := Option.some.inj (hc.symm.trans hc')
  rw [Composite.opensSlot, hintroduces, Bool.true_and, Bool.not_eq_true', List.any_eq_false]
  intro core hcore hsome
  obtain ⟨base, hbase, p, hp, rfl⟩ := exists_of_mem_right steps.ownedLent hcore
  have hbelow := ((refers_iff hc).mpr (Composite.mem_references_of_ownedBase hbase)).below
  obtain ⟨source, howns, hsource⟩ := PlacedAs.exists_introduces (hp ▸ parts _ hbelow) hsome
  obtain ⟨path, hpath⟩ := howns.of_ownedBase hc hbase
  exact hnone path source hpath hsource

/-- Where tail padding is kept, the spans of a layout are apart from one another and from a slot
that the type opens, but for bit-fields of one run in the same storage unit, and all lie before the
end of the data. -/
theorem layout_spans_apart (table : TypeTable) (target : Target) (id : TypeId) (c : Composite)
    (layout : Layout) (hpolicy : target.tailPadding = .keep) (hc : table.get? id = some c)
    (h : table.layout target id = .ok layout) :
    layout.spans.Pairwise (fun a b => a.stop ≤ b.start ∨ Span.SameUnit c.fields a b) ∧
      (∀ span ∈ layout.spans, span.stop ≤ layout.dataSize) ∧
      (table.OpensSlot id → layout.SlotFirst target) := by
  obtain ⟨hwell, placed, part, hplaced, rfl, parts, steps, hregular⟩ :=
    exists_regular_construction h hc
  have hinOrder := hregular.spans_inOrder hwell
  have hroom : ∀ span ∈ placed.layout.spans,
      Composite.room target table.isPod part span = span.size := by
    intro span hmem
    refine (hregular.room_eq hwell hmem).resolve_right ?_
    rintro ⟨-, -, -, -, hreuse, -⟩
    rw [hpolicy] at hreuse
    cases hreuse
  refine ⟨hinOrder.order.imp_of_mem fun hmem _ hbefore => ?_, fun span hmem => ?_,
    fun hopens => hregular.slotFirst hwell (hopens.opens hc parts steps)⟩
  · rwa [hroom _ hmem] at hbefore
  · have hwithin := (hinOrder.within span hmem).2
    rwa [hroom span hmem] at hwithin

/-- A record under a clamp: its own slot, an owned base with tail padding, a run of bit-fields over
two units, a marker, and a shared base. -/
def clampedRecord : TypeTable :=
  { entries := #[
      ⟨"Counted", some
        { name := "Counted"
          fields := [{ name := "count", type := .int }, { name := "flag", type := .char }] }⟩,
      ⟨"Named", some { name := "Named", fields := [{ name := "name", type := .pointer }] }⟩,
      ⟨"Record", some
        { name := "Record", introducesDispatch := true, packing := some 2
          bases := [{ type := ⟨0⟩ }, { type := ⟨1⟩, sharing := .shared }]
          fields := [{ name := "low", type := .int, bitWidth := some 20 },
            { name := "high", type := .int, bitWidth := some 10 },
            { name := "wide", type := .int, bitWidth := some 7 },
            { name := "", type := .int, bitWidth := some 0 },
            { name := "tail", type := .short }] }⟩] }

/-- The first two bit-fields report one unit; everything else is apart, also from the slot. -/
theorem layout_spans_apart_clampedRecord :
    let c : Composite :=
      { name := "Record", introducesDispatch := true, packing := some 2
        bases := [{ type := ⟨0⟩ }, { type := ⟨1⟩, sharing := .shared }]
        fields := [{ name := "low", type := .int, bitWidth := some 20 },
          { name := "high", type := .int, bitWidth := some 10 },
          { name := "wide", type := .int, bitWidth := some 7 },
          { name := "", type := .int, bitWidth := some 0 },
          { name := "tail", type := .short }] }
    let layout : Layout :=
      { size := 34, align := 2, dataSize := 34, dispatch := some 0
        fields := [⟨"low", 16, 4, some ⟨0, 20⟩⟩, ⟨"high", 16, 4, some ⟨20, 10⟩⟩,
          ⟨"wide", 20, 4, some ⟨0, 7⟩⟩, ⟨"", 24, 0, some ⟨0, 0⟩⟩, ⟨"tail", 24, 2, none⟩]
        bases := [⟨⟨0⟩, 8, 8, .owned⟩, ⟨⟨1⟩, 26, 8, .shared⟩] }
    clampedRecord.get? ⟨2⟩ = some c ∧ clampedRecord.layout .lp64 ⟨2⟩ = .ok layout ∧
      clampedRecord.OpensSlot ⟨2⟩ ∧
      layout.spans.Pairwise (fun a b => a.stop ≤ b.start ∨ Span.SameUnit c.fields a b) ∧
      (∀ span ∈ layout.spans, span.stop ≤ layout.dataSize) ∧ layout.SlotFirst .lp64 := by
  intro c layout
  have hc : clampedRecord.get? ⟨2⟩ = some c := by decide
  have hlayout : clampedRecord.layout .lp64 ⟨2⟩ = .ok layout := by decide +kernel
  have hopens : clampedRecord.OpensSlot ⟨2⟩ := by
    refine ⟨⟨c, hc, rfl⟩, ?_⟩
    rintro path part hpath ⟨c', hc', hintroduces⟩
    obtain ⟨next, hrefers, hreach⟩ := below_iff.mp hpath.inherits.below
    have hnext : next ∈ [⟨0⟩, ⟨1⟩] := hrefers
    have hmem : part ∈ [⟨0⟩, ⟨1⟩] := hreach.mem_of_closed (by decide) hnext
    have hnone : ∀ part ∈ [⟨0⟩, ⟨1⟩], ∀ c ∈ clampedRecord.get? part,
        c.introducesDispatch = false := by decide
    rw [hnone part hmem c' hc'] at hintroduces
    cases hintroduces
  obtain ⟨hapart, hwithin, hslot⟩ :=
    layout_spans_apart clampedRecord .lp64 ⟨2⟩ c layout rfl hc hlayout
  exact ⟨hc, hlayout, hopens, hapart, hwithin, hslot hopens⟩

/-- An owned base that is not plain old data, where tail padding is reused, with its placement. -/
structure GivesUpTail (table : TypeTable) (target : Target) (base : PlacedBase)
    (p : Placed) : Prop where
  policy : target.tailPadding = .reuse
  owned : base.sharing = .owned
  notPod : table.isPod base.type = false
  placed : table.PlacedAs target base.type (.ok p)

/-- Whatever the policy for tail padding, a span overlaps an earlier one only as a bit-field of the
same storage unit, or behind the data of an owned base that gives up its tail padding. All spans lie
in the object, but the tail padding of such a base may go beyond it where a packing clamp denies the
base its alignment. -/
theorem layout_spans_reuse (table : TypeTable) (target : Target) (id : TypeId) (c : Composite)
    (layout : Layout) (hpointer : target.pointerSize.isPowerOfTwo) (hc : table.get? id = some c)
    (h : table.layout target id = .ok layout) :
    layout.spans.Pairwise (fun a b => a.stop ≤ b.start ∨ Span.SameUnit c.fields a b ∨
        ∃ base p, a = .base base ∧ table.GivesUpTail target base p ∧
          base.offset + p.core.dataSize ≤ b.start) ∧
      (∀ span ∈ layout.spans, span.stop ≤ layout.size ∨
        ∃ base p, ∃ clamp ∈ c.packing, span = .base base ∧ table.GivesUpTail target base p ∧
          clamp < p.core.align ∧ base.offset + p.core.dataSize ≤ layout.size) ∧
      (table.OpensSlot id → layout.SlotFirst target) := by
  obtain ⟨hwell, placed, part, hplaced, rfl, parts, steps, hregular⟩ :=
    exists_regular_construction h hc
  have hinOrder := hregular.spans_inOrder hwell
  have hsize := (hregular.regular hwell).dataSize_le_size
  have hgives : ∀ base ∈ placed.layout.ownedBases, ∀ p, target.tailPadding = .reuse →
      table.isPod base.type = false → part base.type = .ok p →
      table.GivesUpTail target base p := by
    intro base hmem p hpolicy hpod hp
    obtain ⟨hlisted, howned⟩ := List.mem_filter.mp hmem
    exact ⟨hpolicy, by simpa using howned, hpod, hp ▸ parts _ (hplaced.below_of_mem_bases hlisted)⟩
  refine ⟨hinOrder.order.imp_of_mem fun hmem _ hbefore => ?_, fun span hmem => ?_,
    fun hopens => hregular.slotFirst hwell (hopens.opens hc parts steps)⟩
  · rcases hregular.room_eq hwell hmem with
      hroom | ⟨base, p, rfl, hbase, hpolicy, hpod, hp, hroom⟩
    · rw [hroom] at hbefore
      exact hbefore.imp_right Or.inl
    · rw [hroom] at hbefore
      rcases hbefore with hbefore | hunit
      · exact Or.inr (Or.inr ⟨base, p, rfl, hgives base hbase p hpolicy hpod hp, hbefore⟩)
      · exact Or.inr (Or.inl hunit)
  · have hwithin := (hinOrder.within span hmem).2
    rcases hregular.room_eq hwell hmem with
      hroom | ⟨base, p, rfl, hbase, hpolicy, hpod, hp, hroom⟩
    · rw [hroom] at hwithin
      exact Or.inl (hwithin.trans hsize)
    · rw [hroom] at hwithin
      by_cases hclamp : ∃ clamp ∈ c.packing, clamp < p.core.align
      · obtain ⟨clamp, hpacking, hlt⟩ := hclamp
        exact Or.inr ⟨base, p, clamp, hpacking, rfl, hgives base hbase p hpolicy hpod hp, hlt,
          hwithin.trans hsize⟩
      · refine Or.inl (hregular.owned_stop_le hwell hpointer hbase hp ?_)
        push Not at hclamp
        exact Site.granted_eq_self hclamp

/-- A record that destroys itself, and a type under a clamp that follows it up with bit-fields. -/
def reusedTail : TypeTable :=
  { entries := #[
      ⟨"Counted", some
        { name := "Counted", userProvided := { destroy := true }
          fields := [{ name := "count", type := .longLong }, { name := "flag", type := .char }] }⟩,
      ⟨"Packed", some
        { name := "Packed", introducesDispatch := true, bases := [{ type := ⟨0⟩ }]
          packing := some 2
          fields := [{ name := "low", type := .char, bitWidth := some 3 },
            { name := "high", type := .char, bitWidth := some 4 }] }⟩] }

/-- The bit-fields begin in the tail padding of the base, which goes beyond the object. -/
theorem layout_spans_reuse_reusedTail :
    let target : Target := { Target.lp64 with tailPadding := .reuse }
    let c : Composite :=
      { name := "Packed", introducesDispatch := true, bases := [{ type := ⟨0⟩ }]
        packing := some 2
        fields := [{ name := "low", type := .char, bitWidth := some 3 },
          { name := "high", type := .char, bitWidth := some 4 }] }
    let layout : Layout :=
      { size := 18, align := 2, dataSize := 18, dispatch := some 0
        fields := [⟨"low", 17, 1, some ⟨0, 3⟩⟩, ⟨"high", 17, 1, some ⟨3, 4⟩⟩]
        bases := [⟨⟨0⟩, 8, 16, .owned⟩] }
    reusedTail.get? ⟨1⟩ = some c ∧ reusedTail.layout target ⟨1⟩ = .ok layout ∧
      layout.spans.Pairwise (fun a b => a.stop ≤ b.start ∨ Span.SameUnit c.fields a b ∨
        ∃ base p, a = .base base ∧ reusedTail.GivesUpTail target base p ∧
          base.offset + p.core.dataSize ≤ b.start) ∧
      (∀ span ∈ layout.spans, span.stop ≤ layout.size ∨
        ∃ base p, ∃ clamp ∈ c.packing, span = .base base ∧
          reusedTail.GivesUpTail target base p ∧ clamp < p.core.align ∧
          base.offset + p.core.dataSize ≤ layout.size) ∧
      (reusedTail.OpensSlot ⟨1⟩ → layout.SlotFirst target) := by
  intro target c layout
  have hc : reusedTail.get? ⟨1⟩ = some c := by decide
  have hlayout : reusedTail.layout target ⟨1⟩ = .ok layout := by decide +kernel
  exact ⟨hc, hlayout, layout_spans_reuse reusedTail target ⟨1⟩ c layout (by decide) hc hlayout⟩

/-- A base with tail padding, and a type under a clamp that adds nothing to it. -/
def clampedTail : TypeTable :=
  { entries := #[
      ⟨"Base", some
        { name := "Base", introducesDispatch := true
          fields := [{ name := "number", type := .int }] }⟩,
      ⟨"Packed", some { name := "Packed", bases := [{ type := ⟨0⟩ }], packing := some 1 }⟩] }

/-- The object ends with the data of its base, but the base is reported with its tail padding. -/
theorem base_span_beyond_object :
    let target : Target := { Target.lp64 with tailPadding := .reuse }
    let layout : Layout :=
      { size := 12, align := 1, dataSize := 12, dispatch := some 0, fields := []
        bases := [⟨⟨0⟩, 0, 16, .owned⟩] }
    clampedTail.layout target ⟨1⟩ = .ok layout ∧
      ∃ base ∈ layout.bases, layout.size < base.offset + base.size := by
  intro target layout
  have hlayout : clampedTail.layout target ⟨1⟩ = .ok layout := by decide +kernel
  exact ⟨hlayout, by decide⟩

end TypeTable

end ObjectLayout
