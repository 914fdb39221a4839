import ObjectLayout.Proofs.ExactPlacement

/-!
# Layouts within bounds

By recursion over the types below, a type is laid out exactly as without a bound on addresses, or is
rejected for a reachable type whose exact size is out of bounds. Where no exact size is, the sums
that placement forms without a check stay within bounds as well: the positions of bit-fields by the
number of units that a run can take at most, all others by the sizes that they lie within.
-/
namespace ObjectLayout

lemma Composite.holds_size {target : Target} {isPod : TypeId → Bool}
    {part : TypeId → Except Rejection Placed} {c : Composite} {placed : Placed}
    (h : c.place target isPod part = .ok placed) : target.holds placed.layout.size = true := by
  unfold place at h
  obtain ⟨own, -, h⟩ := bind_eq_ok.mp h
  obtain ⟨core, -, h⟩ := bind_eq_ok.mp h
  obtain ⟨shared, -, h⟩ := bind_eq_ok.mp h
  obtain ⟨complete, -, h⟩ := bind_eq_ok.mp h
  obtain ⟨size, hsize, h⟩ := bind_eq_ok.mp h
  cases h
  obtain ⟨hholds, rfl⟩ := Site.require_offset_eq_ok.mp hsize
  exact hholds

lemma Target.holds_iff {target : Target} {bound n : Nat} (h : target.addressSpace = some bound) :
    target.holds n = true ↔ n < bound := by
  simp [holds, h]

namespace BitPacking

/-- What packing computes: at each member the bits that it needs of the current unit, its first bit
and the position behind it, and last the bits of all units taken. -/
def sums (unitBits : Nat) : Nat → List BitItem → List Nat
  | position, [] => [nextMultiple position unitBits]
  | position, member :: rest =>
    let first := start unitBits position member.width
    [position % unitBits + member.width, first, first + member.width]
      ++ sums unitBits (first + member.width) rest

variable {unitBits position units : Nat} {items : List BitItem}

/-- A member that fits into a unit needs one more unit at most. -/
lemma start_le (hunit : 0 < unitBits) (h : position ≤ units * unitBits) (width : Nat) :
    start unitBits position width ≤ units * unitBits := by
  unfold start
  split
  · exact nextMultiple_le_of_dvd hunit h (Nat.dvd_mul_left _ _)
  · exact h

lemma nextMultiple_finish_mem_sums :
    nextMultiple (finish unitBits position items) unitBits ∈ sums unitBits position items := by
  induction items generalizing position with
  | nil => exact List.mem_singleton_self _
  | cons item items ih => exact List.mem_append_right _ ih

/-- No sum goes beyond as many units as there are members. -/
lemma sums_le (hunit : 0 < unitBits) (hwidths : ∀ item ∈ items, item.width ≤ unitBits)
    (hposition : position ≤ units * unitBits) :
    ∀ n ∈ sums unitBits position items, n ≤ (units + items.length) * unitBits := by
  induction items generalizing position units with
  | nil =>
    rintro _ (_ | ⟨_, ⟨⟩⟩)
    exact nextMultiple_le_of_dvd hunit hposition (Nat.dvd_mul_left _ _)
  | cons item items ih =>
    obtain ⟨hwidth, hrest⟩ := List.forall_mem_cons.mp hwidths
    have hfirst := start_le hunit hposition item.width
    have hnext : start unitBits position item.width + item.width ≤ (units + 1) * unitBits := by
      rw [Nat.succ_mul]
      omega
    have hmod := Nat.mod_le position unitBits
    have hlength : (units + (item :: items).length) * unitBits =
        (units + 1) * unitBits + items.length * unitBits := by
      rw [← Nat.add_mul, List.length_cons, Nat.add_right_comm, Nat.add_assoc]
    have hone : (units + 1) * unitBits = units * unitBits + unitBits := Nat.succ_mul _ _
    rw [hlength]
    intro n hmem
    rw [sums] at hmem
    simp only [List.mem_append, List.mem_cons, List.not_mem_nil, or_false, or_assoc] at hmem
    rcases hmem with rfl | rfl | rfl | hmem
    · omega
    · omega
    · omega
    · rw [← Nat.add_mul]
      exact ih hrest hnext n hmem

end BitPacking

namespace TypeTable

variable {table : TypeTable} {target : Target} {id part : TypeId} {align : Nat}

/-- Acceptance does not look at the bound on addresses. -/
lemma Accepted.unbounded (h : table.Accepted target id align) :
    table.Accepted target.unbounded id align := by
  induction h with
  | @intro _ c align defined wellFormed parts forced ih =>
    have hfields : ∀ field ∈ c.fields, field.WellFormed target.unbounded := fun field hmem =>
      have hfield := wellFormed.fields field hmem
      ⟨hfield.size_pos, hfield.natural, hfield.bits, hfield.forced⟩
    exact .intro align defined ⟨wellFormed.exclusive, wellFormed.forced, wellFormed.packing,
      wellFormed.names, hfields⟩ ih forced

/-- An accepted type is placed, though it may outgrow the target, and its layout is that of the
placement. -/
lemma Accepted.exists_placedAs (h : table.Accepted target id align) :
    ∃ answer, table.PlacedAs target id answer ∧
      table.layout target id = answer.map Placed.layout := by
  have hanswers := table.layout_answers target id
  rw [h.answer_eq (accept_explained .nil id)] at hanswers
  exact hanswers.2

/-- An accepted type has an exact layout. -/
lemma Accepted.exists_exact (h : table.Accepted target id align) :
    ∃ exact, table.PlacedAs target.unbounded id (.ok exact) ∧
      table.layout target.unbounded id = .ok exact.layout := by
  obtain ⟨answer, hplaced, hlayout⟩ := h.unbounded.exists_placedAs
  obtain ⟨exact, rfl⟩ := hplaced.eq_ok_of_unbounded rfl
  exact ⟨exact, hplaced, hlayout⟩

lemma PlacedAs.holds_size {placed : Placed} (h : table.PlacedAs target id (.ok placed)) :
    target.holds placed.layout.size = true := by
  generalize hanswer : (Except.ok placed : Except Rejection Placed) = answer at h
  cases h with
  | intro part defined parts => exact Composite.holds_size hanswer.symm

/-- The rejection names a type that `id` reaches and whose exact size is out of bounds. -/
def Outgrown (table : TypeTable) (target : Target) (id : TypeId) (rejection : Rejection) : Prop :=
  ∃ part c placed, table.Reaches id part ∧ table.get? part = some c ∧
    table.PlacedAs target.unbounded part (.ok placed) ∧
    target.holds placed.layout.size = false ∧ rejection = .sizeOverflow c.name

lemma Outgrown.of_below {rejection : Rejection} (h : table.Outgrown target part rejection)
    (hbelow : table.Below id part) : table.Outgrown target id rejection := by
  obtain ⟨other, c, placed, hreach, hrest⟩ := h
  exact ⟨other, c, placed, hbelow.reaches.trans hreach, hrest⟩

/-- The placement of an accepted type follows the exact one. -/
theorem PlacedAs.follows {answer : Except Rejection Placed} {exact : Placed}
    (hexact : table.PlacedAs target.unbounded id (.ok exact))
    (h : table.PlacedAs target id answer) (haccepted : table.Accepted target id align)
    (hpointer : target.pointerSize.isPowerOfTwo) :
    Follows (table.Outgrown target id) answer exact := by
  induction hexact using ok_induction generalizing answer align with
  | @step id exact c exactPart hexact defined exactParts steps ih =>
    cases h with
    | @intro _ c' part defined' parts =>
      obtain rfl : c = c' := Option.some.inj (defined.symm.trans defined')
      have hwell := haccepted.unbounded.wellFormed defined
      have hbelow : ∀ other, other ∈ c.references ∨ other ∈ exact.shared →
          table.Below id other := fun other hother => hexact.below_of_part defined hother
      have hregular : steps.PartsRegular :=
        hexact.partsRegular haccepted.unbounded defined exactParts steps
      refine steps.follows hwell hregular (fun other p hother hp => ?_) hpointer ?_
      · obtain ⟨align', haccepted'⟩ := haccepted.reaches (hbelow other hother).reaches
        exact (ih other (hbelow other hother) p hp (parts other (hbelow other hother))
          haccepted').mono fun _ hgrown => hgrown.of_below (hbelow other hother)
      · cases hholds : target.holds exact.layout.size with
        | true => exact Or.inl hholds
        | false => exact Or.inr ⟨id, c, exact, .refl table id, defined, hexact, hholds, rfl⟩

/-- No sum or product that placement forms without a check is out of bounds: where the slot of a
base comes to lie in the type, the bits of a storage unit, the positions within a run of bit-fields,
the bytes of a run, and the offset of a field, which for a bit-field adds whole units to the start
of its run. -/
structure Unwrapped (table : TypeTable) (target : Target) (bound : Nat) (c : Composite)
    (layout : Layout) : Prop where
  slots : ∀ base ∈ layout.bases, ∀ placed, table.PlacedAs target base.type (.ok placed) →
    ∀ offset ∈ placed.core.dispatch, base.offset + offset < bound
  units : ∀ unit fields, .run unit fields ∈ FieldGroup.ofFields c.fields → unit * 8 < bound
  positions : ∀ unit fields, .run unit fields ∈ FieldGroup.ofFields c.fields →
    ∀ n ∈ BitPacking.sums (unit * 8) 0 (FieldGroup.bitItems fields), n < bound
  regions : ∀ unit fields, .run unit fields ∈ FieldGroup.ofFields c.fields →
    (PackedRun.ofMembers unit (FieldGroup.bitItems fields)).size < bound
  fields : ∀ field ∈ layout.fields, field.offset < bound

/-- Every run of bit-fields of the type is within bounds if each of its members takes a unit. -/
def RunsFit (bound : Nat) (c : Composite) : Prop :=
  ∀ unit fields, .run unit fields ∈ FieldGroup.ofFields c.fields →
    fields.length * (8 * unit) < bound

/-- The members of a run fit into its units, so no sum goes beyond one unit for each. -/
lemma run_unwrapped {bound : Nat} {c : Composite} (hwell : c.WellFormed target)
    (hruns : RunsFit bound c) {unit : Nat} {fields : List Field}
    (hgroup : .run unit fields ∈ FieldGroup.ofFields c.fields) :
    unit * 8 < bound ∧
      ∀ n ∈ BitPacking.sums (unit * 8) 0 (FieldGroup.bitItems fields), n < bound := by
  have hvalid := FieldGroup.ofFields_valid hwell.fields _ hgroup
  have hwidths : ∀ item ∈ FieldGroup.bitItems fields, item.width ≤ unit * 8 :=
    fun item hitem => (hvalid.bitItems_width item hitem).2
  obtain ⟨hunit, hne, -⟩ := hvalid
  have hfit := hruns unit fields hgroup
  have hsums : ∀ n ∈ BitPacking.sums (unit * 8) 0 (FieldGroup.bitItems fields),
      n ≤ (0 + (FieldGroup.bitItems fields).length) * (unit * 8) :=
    BitPacking.sums_le (Nat.mul_pos hunit (by decide)) hwidths (Nat.zero_le _)
  rw [Nat.zero_add, FieldGroup.bitItems, List.length_map, Nat.mul_comm unit 8] at hsums
  refine ⟨?_, fun n hmem => (hsums n ?_).trans_lt hfit⟩
  · have hone := Nat.mul_le_mul_right (8 * unit) (List.length_pos_iff.mpr hne)
    omega
  · rwa [FieldGroup.bitItems, Nat.mul_comm unit 8] at hmem

/-- Within an exact size that is in bounds nothing wraps. -/
theorem PlacedAs.unwrapped {bound : Nat} {c : Composite} {placed : Placed}
    (h : table.PlacedAs target id (.ok placed)) (haccepted : table.Accepted target id align)
    (hc : table.get? id = some c)
    (hruns : RunsFit bound c) (hsize : placed.layout.size < bound) :
    table.Unwrapped target bound c placed.layout := by
  obtain ⟨c', part, defined, parts, ⟨steps⟩⟩ := h.construction
  obtain rfl : c = c' := Option.some.inj (hc.symm.trans defined)
  have hwell := haccepted.wellFormed hc
  have hregular := h.partsRegular haccepted hc parts steps
  have hdata := (h.regular haccepted).dataSize_le_size
  constructor
  case slots =>
    intro base hmem p hp offset hoffset
    obtain ⟨p', hp', hle⟩ := hregular.base_within hwell hmem
    have hbelow := h.below_of_mem_bases hmem
    obtain rfl : p = p' := Except.ok.inj (hp.unique (hp' ▸ parts base.type hbelow))
    obtain ⟨align', haccepted'⟩ := haccepted.reaches hbelow.reaches
    have hslot := (hp.regular haccepted').core.slot offset hoffset
    omega
  case units => exact fun unit fields hgroup => (run_unwrapped hwell hruns hgroup).1
  case positions => exact fun unit fields hgroup => (run_unwrapped hwell hruns hgroup).2
  case regions =>
    intro unit fields hgroup
    have hbits := (run_unwrapped hwell hruns hgroup).2 _ BitPacking.nextMultiple_finish_mem_sums
    exact (Nat.div_le_self _ 8).trans_lt hbits
  case fields =>
    intro field hmem
    have hle := hregular.field_within hwell hmem
    omega

/-- Where no exact size is out of bounds, the layout is the exact one. -/
theorem Accepted.layout_eq_unbounded {bound : Nat} (h : table.Accepted target id align)
    (hpointer : target.pointerSize.isPowerOfTwo) (hbound : target.addressSpace = some bound)
    (hsmall : ∀ part exact, table.Reaches id part →
      table.layout target.unbounded part = .ok exact → exact.size < bound) :
    table.layout target id = table.layout target.unbounded id := by
  obtain ⟨exact, hexact, hexactLayout⟩ := h.exists_exact
  obtain ⟨answer, hanswer, hlayout⟩ := h.exists_placedAs
  rcases hexact.follows hanswer h hpointer with
    rfl | ⟨rejection, rfl, part, c, placed, hreach, -, hplaced, hlarge, -⟩
  · rw [hlayout, hexactLayout]
    rfl
  · obtain ⟨align', haccepted⟩ := h.reaches hreach
    have hsize := hsmall part _ hreach (layout_of_placedAs haccepted.unbounded hplaced)
    rw [(Target.holds_iff hbound).mpr hsize] at hlarge
    cases hlarge

/-- Where some exact size is out of bounds, the type is rejected for such a size. -/
theorem Accepted.layout_eq_sizeOverflow {bound : Nat} {large : TypeId} {size : Layout}
    (h : table.Accepted target id align) (hpointer : target.pointerSize.isPowerOfTwo)
    (hbound : target.addressSpace = some bound) (hreach : table.Reaches id large)
    (hlarge : table.layout target.unbounded large = .ok size) (hsize : bound ≤ size.size) :
    ∃ part c exact, table.Reaches id part ∧ table.get? part = some c ∧
      table.layout target.unbounded part = .ok exact ∧ bound ≤ exact.size ∧
      table.layout target id = .error (.sizeOverflow c.name) := by
  obtain ⟨exact, hexact, -⟩ := h.exists_exact
  obtain ⟨answer, hanswer, hlayout⟩ := h.exists_placedAs
  rcases hexact.follows hanswer h hpointer with
    rfl | ⟨rejection, rfl, part, c, placed, hpart, hc, hplaced, hbeyond, rfl⟩
  · -- A placement within bounds has only parts within bounds.
    obtain ⟨found, hfound⟩ := hanswer.reaches h hreach
    obtain ⟨align', haccepted⟩ := h.reaches hreach
    obtain ⟨exact', hexact', hexactLayout'⟩ := haccepted.exists_exact
    obtain rfl : found = exact' := (hexact'.follows hfound haccepted hpointer).eq_of_ok
    obtain rfl : found.layout = size := Except.ok.inj (hexactLayout'.symm.trans hlarge)
    exact absurd ((Target.holds_iff hbound).mp hfound.holds_size) (Nat.not_lt.mpr hsize)
  · obtain ⟨align', haccepted⟩ := h.reaches hpart
    refine ⟨part, c, placed.layout, hpart, hc,
      layout_of_placedAs haccepted.unbounded hplaced, ?_, hlayout⟩
    rw [← Nat.not_lt, ← Target.holds_iff hbound, hbeyond]
    exact Bool.false_ne_true

/-- After any questions, an accepted type is laid out exactly as without a bound on addresses, and
nothing wraps, if the exact size of every type that it reaches is within bounds; else it is rejected
as too large, for a reachable type whose exact size is out of bounds. -/
theorem layout_exact_or_outgrown (table : TypeTable) (target : Target) (bound : Nat)
    (asked : List TypeId) (id : TypeId) (align : Nat) (memo : Memo Nat)
    (hpointer : target.pointerSize.isPowerOfTwo) (hbound : target.addressSpace = some bound)
    (haccept : (table.accept target id).run (table.acceptedAfter target asked) = .ok align memo)
    (hruns : ∀ part c, table.Reaches id part → table.get? part = some c → RunsFit bound c) :
    (∀ part, table.Reaches id part → ∃ exact, table.layout target.unbounded part = .ok exact) ∧
      ((∀ part exact, table.Reaches id part → table.layout target.unbounded part = .ok exact →
          exact.size < bound) →
        table.layout target id = table.layout target.unbounded id ∧
        ∀ part c layout, table.Reaches id part → table.get? part = some c →
          table.layout target part = .ok layout → table.Unwrapped target bound c layout) ∧
      ((∃ part exact, table.Reaches id part ∧ table.layout target.unbounded part = .ok exact ∧
          bound ≤ exact.size) →
        ∃ part c exact, table.Reaches id part ∧ table.get? part = some c ∧
          table.layout target.unbounded part = .ok exact ∧ bound ≤ exact.size ∧
          table.layout target id = .error (.sizeOverflow c.name)) := by
  have hexplained := accept_explained (acceptedAfter_inOrder table target asked) id
  rw [haccept] at hexplained
  have haccepted := hexplained.1
  refine ⟨fun part hreach => ?_, fun hsmall => ⟨?_, fun part c layout hreach hc hpart => ?_⟩, ?_⟩
  · obtain ⟨align', haccepted'⟩ := haccepted.reaches hreach
    obtain ⟨found, -, hfound⟩ := haccepted'.exists_exact
    exact ⟨found.layout, hfound⟩
  · exact haccepted.layout_eq_unbounded hpointer hbound hsmall
  · obtain ⟨align', placed, haccepted', hplaced, rfl⟩ := layout_eq_ok hpart
    exact hplaced.unwrapped haccepted' hc (hruns part c hreach hc)
      ((Target.holds_iff hbound).mp hplaced.holds_size)
  · rintro ⟨large, size, hreach, hlarge, hsize⟩
    exact haccepted.layout_eq_sizeOverflow hpointer hbound hreach hlarge hsize

/-- An entry, which begins with the slot and the flags of its base; an image, whose pixels behind
the entry reach to the end of the address space exactly; and an album that holds the image. -/
def vastImage : TypeTable :=
  { entries := #[
      ⟨"Named", some
        { name := "Named", introducesDispatch := true
          fields := [{ name := "kind", type := .int, bitWidth := some 3 },
            { name := "depth", type := .int, bitWidth := some 31 }] }⟩,
      ⟨"Entry", some
        { name := "Entry", bases := [{ type := ⟨0⟩ }]
          fields := [{ name := "tag", type := .char }] }⟩,
      ⟨"Image", some
        { name := "Image", bases := [{ type := ⟨1⟩ }]
          fields := [{ name := "pixels", type := .scalar 18446744073709551592 1 }] }⟩,
      ⟨"Album", some
        { name := "Album", fields := [{ name := "cover", type := .composite ⟨2⟩ }] }⟩] }

/-- The entry is laid out as without a bound, though the image outgrows the target; the album is
rejected for its image. -/
theorem layout_exact_or_outgrown_vastImage :
    let bound := 18446744073709551616
    let entry : Composite :=
      { name := "Entry", bases := [{ type := ⟨0⟩ }]
        fields := [{ name := "tag", type := .char }] }
    let layout : Layout :=
      { size := 24, align := 8, dataSize := 17, dispatch := some 0
        fields := [⟨"tag", 16, 1, none⟩], bases := [⟨⟨0⟩, 0, 16, .owned⟩] }
    vastImage.get? ⟨1⟩ = some entry ∧ vastImage.layout .lp64 ⟨1⟩ = .ok layout ∧
      vastImage.layout .lp64 ⟨1⟩ = vastImage.layout Target.lp64.unbounded ⟨1⟩ ∧
      vastImage.Unwrapped .lp64 bound entry layout ∧
      ∃ part c exact, vastImage.Reaches ⟨3⟩ part ∧ vastImage.get? part = some c ∧
        vastImage.layout Target.lp64.unbounded part = .ok exact ∧ bound ≤ exact.size ∧
        vastImage.layout .lp64 ⟨3⟩ = .error (.sizeOverflow c.name) := by
  intro bound entry layout
  have hentry : vastImage.get? ⟨1⟩ = some entry := by decide
  have hlayout : vastImage.layout .lp64 ⟨1⟩ = .ok layout := by decide +kernel
  have hclosed : ∀ whole ∈ [⟨3⟩, ⟨2⟩, ⟨1⟩, ⟨0⟩], ∀ other ∈ vastImage.references whole,
      other ∈ [⟨3⟩, ⟨2⟩, ⟨1⟩, ⟨0⟩] := by decide
  have hruns : ∀ part ∈ [⟨3⟩, ⟨2⟩, ⟨1⟩, ⟨0⟩], ∀ c, vastImage.get? part = some c →
      RunsFit bound c := by
    intro part hpart c hc unit fields hgroup
    simp only [List.mem_cons, List.not_mem_nil, or_false] at hpart
    rcases hpart with rfl | rfl | rfl | rfl <;> cases hc <;>
      simp [FieldGroup.ofFields, FieldGroup.joinRun, Field.storageUnit, FieldType.int] at hgroup
    obtain ⟨rfl, rfl⟩ := hgroup
    decide
  have haccept : (vastImage.accept .lp64 ⟨1⟩).run (vastImage.acceptedAfter .lp64 []) =
      .ok 8 { entries := [(⟨1⟩, 8), (⟨0⟩, 8)] } := by rfl
  have halbum : (vastImage.accept .lp64 ⟨3⟩).run (vastImage.acceptedAfter .lp64 [⟨1⟩]) =
      .ok 8 { entries := [(⟨3⟩, 8), (⟨2⟩, 8), (⟨1⟩, 8), (⟨0⟩, 8)] } := by rfl
  have hsizes : ∀ part ∈ [⟨1⟩, ⟨0⟩],
      (vastImage.layout Target.lp64.unbounded part).map Layout.size ∈ [.ok 24, .ok 16] := by
    decide +kernel
  have hsmall : ∀ part exact, vastImage.Reaches ⟨1⟩ part →
      vastImage.layout Target.lp64.unbounded part = .ok exact → exact.size < bound := by
    intro part exact hreach hexact
    have hsize := hsizes part (hreach.mem_of_closed (by decide) (by decide))
    rw [hexact, List.mem_pair] at hsize
    rcases hsize with hsize | hsize <;> rw [Except.ok.inj hsize] <;> decide
  have hlarge : vastImage.layout Target.lp64.unbounded ⟨3⟩ = .ok
      { size := bound, align := 8, dataSize := bound, dispatch := none
        fields := [⟨"cover", 0, bound, none⟩], bases := [] } := by decide +kernel
  obtain ⟨-, hexact, -⟩ := layout_exact_or_outgrown vastImage .lp64 bound [] ⟨1⟩ 8 _ (by decide) rfl
    haccept fun part c hreach => hruns part (hreach.mem_of_closed hclosed (by decide)) c
  obtain ⟨-, -, houtgrown⟩ := layout_exact_or_outgrown vastImage .lp64 bound [⟨1⟩] ⟨3⟩ 8 _
    (by decide) rfl halbum
    fun part c hreach => hruns part (hreach.mem_of_closed hclosed (by decide)) c
  obtain ⟨hsame, hunwrapped⟩ := hexact hsmall
  exact ⟨hentry, hlayout, hsame, hunwrapped _ _ _ (.refl _ _) hentry hlayout,
    houtgrown ⟨⟨3⟩, _, .refl _ _, hlarge, Nat.le_refl _⟩⟩

end TypeTable

end ObjectLayout
