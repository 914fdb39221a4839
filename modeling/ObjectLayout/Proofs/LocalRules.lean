import Mathlib.Data.Nat.Basic
import Mathlib.Order.Basic
import ObjectLayout.Demand
import ObjectLayout.Proofs.References

/-!
# Local rules

What must hold of one composite on its own, whatever the types that it refers to, and what it
means for a rejection to name a breach of these rules. The demands of a composite are related to
both: a defect among the demands is a breach, and a composite without a defect is well formed.
-/
namespace ObjectLayout

theorem isPowerOfTwo_iff {n : Nat} : isPowerOfTwo n = true ↔ n.isPowerOfTwo := by
  rw [isPowerOfTwo, beq_iff_eq, Nat.one_shiftLeft]
  constructor
  · exact fun h => ⟨_, h⟩
  · rintro ⟨k, rfl⟩
    rw [Nat.log2_two_pow]

lemma foldl_max_le_iff {l : List Nat} {a n : Nat} :
    l.foldl max a ≤ n ↔ a ≤ n ∧ ∀ x ∈ l, x ≤ n := by
  induction l generalizing a with
  | nil => simp
  | cons x l ih => rw [List.foldl_cons, ih, Nat.max_le, and_assoc, List.forall_mem_cons]

namespace Field

/-- The alignment that a scalar field states: for a bit-field, the size of its storage unit. -/
def scalarAlign? (field : Field) : Option Nat :=
  match field.type with
  | .scalar size align => some (if field.isBitField then size else align)
  | .pointer | .composite _ => none

structure WellFormed (target : Target) (field : Field) : Prop where
  size_pos : ∀ size align, field.type = .scalar size align → 0 < size
  natural : ∀ align ∈ field.scalarAlign?, align.isPowerOfTwo ∧ align ≤ target.maxNaturalAlign
  bits : ∀ width ∈ field.bitWidth, field.forcedAlign = none ∧
    ∃ size align, field.type = .scalar size align ∧ width ≤ 8 * size
  forced : ∀ align ∈ field.forcedAlign, align.isPowerOfTwo

/-- The rejection names a breach of the rules by this field of the type `owner`. -/
def HasDefect (target : Target) (owner : String) (field : Field) : Rejection → Prop
  | .nonPowerOfTwoAlignment type part align =>
    type = owner ∧ part = .field field.name ∧ ¬ align.isPowerOfTwo ∧
      (field.forcedAlign = some align ∨ field.scalarAlign? = some align)
  | .alignmentExceedsMaximum type part align maximum =>
    type = owner ∧ part = .field field.name ∧ maximum = target.maxNaturalAlign ∧
      maximum < align ∧ field.scalarAlign? = some align
  | .zeroSizedField type name =>
    type = owner ∧ name = field.name ∧ ∃ align, field.type = .scalar 0 align
  | .bitWidthTooWide type name width storageBits =>
    type = owner ∧ name = field.name ∧ field.bitWidth = some width ∧ storageBits < width ∧
      ∃ size align, field.type = .scalar size align ∧ storageBits = 8 * size
  | .nonScalarBitField type name =>
    type = owner ∧ name = field.name ∧ field.isBitField ∧
      ∀ size align, field.type ≠ .scalar size align
  | .alignedBitField type name =>
    type = owner ∧ name = field.name ∧ field.isBitField ∧ field.forcedAlign.isSome
  | _ => False

lemma WellFormed.not_hasDefect {target : Target} {owner : String} {field : Field}
    (h : field.WellFormed target) (rejection : Rejection) :
    ¬ field.HasDefect target owner rejection := by
  intro hd
  cases rejection with
  | nonPowerOfTwoAlignment type part align =>
    obtain ⟨-, -, hpow, hforced | hnatural⟩ := hd
    · exact hpow (h.forced align hforced)
    · exact hpow (h.natural align hnatural).1
  | alignmentExceedsMaximum type part align maximum =>
    obtain ⟨-, -, rfl, hlt, hnatural⟩ := hd
    exact absurd (h.natural align hnatural).2 (Nat.not_le.mpr hlt)
  | zeroSizedField type name =>
    obtain ⟨-, -, align, htype⟩ := hd
    exact absurd (h.size_pos 0 align htype) (Nat.lt_irrefl 0)
  | bitWidthTooWide type name width storageBits =>
    obtain ⟨-, -, hwidth, hlt, size, align, htype, rfl⟩ := hd
    obtain ⟨-, size', align', htype', hle⟩ := h.bits width hwidth
    rw [htype] at htype'
    cases htype'
    omega
  | nonScalarBitField type name =>
    obtain ⟨-, -, hbits, htype⟩ := hd
    obtain ⟨width, hwidth⟩ := Option.isSome_iff_exists.mp hbits
    obtain ⟨-, size, align, htype', -⟩ := h.bits width hwidth
    exact htype size align htype'
  | alignedBitField type name =>
    obtain ⟨-, -, hbits, hforced⟩ := hd
    obtain ⟨width, hwidth⟩ := Option.isSome_iff_exists.mp hbits
    simp [(h.bits width hwidth).1] at hforced
  | _ => exact hd

lemma hasDefect_of_naturalDemand {target : Target} {owner : String} {field : Field} {align : Nat}
    {rejection : Rejection} (halign : field.scalarAlign? = some align)
    (h : field.naturalDemand target owner align = .defect rejection) :
    field.HasDefect target owner rejection := by
  unfold naturalDemand at h
  split at h
  · next hpow =>
    cases h
    refine ⟨rfl, rfl, fun hp => ?_, Or.inr halign⟩
    simp [isPowerOfTwo_iff.mpr hp] at hpow
  · split at h
    · next hlt =>
      cases h
      exact ⟨rfl, rfl, rfl, hlt, halign⟩
    · cases h

lemma naturalDemand_of_sound {target : Target} {owner : String} {field : Field} {align : Nat}
    (hpow : align.isPowerOfTwo) (hle : align ≤ target.maxNaturalAlign) :
    field.naturalDemand target owner align = .align align := by
  rw [naturalDemand, isPowerOfTwo_iff.mpr hpow, if_neg (by simp), if_neg (Nat.not_lt.mpr hle)]

/-- A natural alignment without fault is a power of two within the bound of the target. -/
lemma sound_of_naturalDemand {target : Target} {owner : String} {field : Field} {align : Nat}
    (h : ∀ rejection, field.naturalDemand target owner align ≠ .defect rejection) :
    align.isPowerOfTwo ∧ align ≤ target.maxNaturalAlign := by
  unfold naturalDemand at h
  split at h
  · exact absurd rfl (h _)
  · next hpow =>
    split at h
    · exact absurd rfl (h _)
    · next hlt => exact ⟨isPowerOfTwo_iff.mp (by simpa using hpow), Nat.le_of_not_lt hlt⟩

lemma hasDefect_of_mem_bitDemands {target : Target} {owner : String} {field : Field}
    {size align width : Nat} {rejection : Rejection} (htype : field.type = .scalar size align)
    (hwidth : field.bitWidth = some width)
    (h : .defect rejection ∈ field.bitDemands target owner size width) :
    field.HasDefect target owner rejection := by
  have hscalar : field.scalarAlign? = some size := by simp [scalarAlign?, htype, isBitField, hwidth]
  unfold bitDemands at h
  cases hn : field.naturalDemand target owner size with
  | align bytes =>
    rw [hn] at h
    dsimp only at h
    split at h
    · next hlt =>
      cases List.mem_singleton.mp h
      exact ⟨rfl, rfl, hwidth, hlt, size, align, htype, Nat.mul_comm size 8⟩
    · split at h <;> simp at h
  | nested id =>
    rw [hn] at h
    simp at h
  | defect found =>
    rw [hn] at h
    cases List.mem_singleton.mp h
    exact hasDefect_of_naturalDemand hscalar hn

lemma hasDefect_of_mem_typeDemands {target : Target} {owner : String} {field : Field}
    {rejection : Rejection} (h : .defect rejection ∈ field.typeDemands target owner) :
    field.HasDefect target owner rejection := by
  unfold typeDemands at h
  split at h
  · next size align htype =>
    split at h
    · next hsize =>
      cases List.mem_singleton.mp h
      exact ⟨rfl, rfl, align, by rw [htype, hsize]⟩
    · split at h
      · next hbits =>
        refine hasDefect_of_naturalDemand ?_ (List.mem_singleton.mp h).symm
        simp [scalarAlign?, htype, isBitField, hbits]
      · next width hbits => exact hasDefect_of_mem_bitDemands htype hbits h
  · simp at h
  · simp at h
  all_goals
    next htype hbits =>
    cases List.mem_singleton.mp h
    exact ⟨rfl, rfl, by simp [isBitField, hbits], by simp [htype]⟩

lemma hasDefect_of_mem_demands {target : Target} {owner : String} {field : Field}
    {rejection : Rejection} (h : .defect rejection ∈ field.demands target owner) :
    field.HasDefect target owner rejection := by
  unfold demands at h
  split at h
  · next hbits hforced =>
    cases List.mem_singleton.mp h
    exact ⟨rfl, rfl, by simp [isBitField, hbits], by simp [hforced]⟩
  · exact hasDefect_of_mem_typeDemands h
  · next forced hbits hforced =>
    rcases List.mem_append.mp h with h | h
    · exact hasDefect_of_mem_typeDemands h
    · rw [List.mem_singleton, Demand.forced] at h
      split at h
      · cases h
      · next hpow =>
        cases h
        exact ⟨rfl, rfl, fun hp => hpow (isPowerOfTwo_iff.mpr hp), Or.inl hforced⟩

/-- A field whose demands hold no defect is well formed. -/
lemma wellFormed_of_demands {target : Target} {owner : String} {field : Field}
    (h : ∀ rejection, .defect rejection ∉ field.demands target owner) :
    field.WellFormed target := by
  have htype : ∀ rejection, .defect rejection ∉ field.typeDemands target owner := by
    intro rejection hmem
    unfold demands at h
    split at h
    · exact h _ (List.mem_singleton.mpr rfl)
    · exact h _ hmem
    · exact h _ (List.mem_append_left _ hmem)
  have hforced : ∀ align ∈ field.forcedAlign, align.isPowerOfTwo := by
    intro align halign
    cases hbits : field.bitWidth with
    | some width => simp [demands, hbits, Option.mem_def.mp halign] at h
    | none =>
      by_contra hpow
      refine h (.nonPowerOfTwoAlignment owner (.field field.name) align) ?_
      simp [demands, hbits, Option.mem_def.mp halign, Demand.forced, isPowerOfTwo_iff, hpow]
  cases hft : field.type with
  | pointer =>
    have hbits : field.bitWidth = none := by
      cases hbits : field.bitWidth with
      | none => rfl
      | some width => simp [typeDemands, hft, hbits] at htype
    exact ⟨by simp [hft], by simp [scalarAlign?, hft], by simp [hbits], hforced⟩
  | composite id =>
    have hbits : field.bitWidth = none := by
      cases hbits : field.bitWidth with
      | none => rfl
      | some width => simp [typeDemands, hft, hbits] at htype
    exact ⟨by simp [hft], by simp [scalarAlign?, hft], by simp [hbits], hforced⟩
  | scalar size align =>
    have hsize : size ≠ 0 := by
      rintro rfl
      simp [typeDemands, hft] at htype
    have hpos : ∀ size' align', FieldType.scalar size align = .scalar size' align' → 0 < size' := by
      rintro size' align' heq
      cases heq
      exact Nat.pos_of_ne_zero hsize
    cases hbits : field.bitWidth with
    | none =>
      have hnatural : align.isPowerOfTwo ∧ align ≤ target.maxNaturalAlign :=
        sound_of_naturalDemand fun rejection (heq : field.naturalDemand target owner align = _) =>
          htype rejection (by simp [typeDemands, hft, hbits, hsize, heq])
      refine ⟨by rwa [hft], ?_, by simp [hbits], hforced⟩
      simpa [scalarAlign?, hft, isBitField, hbits] using hnatural
    | some width =>
      have hnatural : size.isPowerOfTwo ∧ size ≤ target.maxNaturalAlign :=
        sound_of_naturalDemand fun rejection (heq : field.naturalDemand target owner size = _) =>
          htype rejection (by simp [typeDemands, bitDemands, hft, hbits, hsize, heq])
      have hnone : field.forcedAlign = none := by
        cases hf : field.forcedAlign with
        | none => rfl
        | some align' => simp [demands, hbits, hf] at h
      have hwidth : width ≤ 8 * size := by
        by_contra hlt
        refine htype (.bitWidthTooWide owner field.name width (size * 8)) ?_
        simp only [typeDemands, bitDemands, hft, hbits, hsize, if_false,
          naturalDemand_of_sound hnatural.1 hnatural.2]
        rw [if_pos (by omega)]
        exact List.mem_singleton.mpr rfl
      refine ⟨by rwa [hft], ?_, ?_, hforced⟩
      · simpa [scalarAlign?, hft, isBitField, hbits] using hnatural
      · simpa [hbits, hnone, hft] using hwidth

/-- The alignment that a field asks for, given those of the types below, before any packing
clamp. -/
def requiredAlign (target : Target) (align : TypeId → Nat) (field : Field) : Nat :=
  max (field.forcedAlign.getD 1) (match field.type with
    | .scalar size natural => if field.isBitField then size else natural
    | .pointer => target.pointerSize
    | .composite id => align id)

end Field

/-- What a demand asks for, given the alignments of the types below. -/
def Demand.value (align : TypeId → Nat) : Demand → Nat
  | .align bytes => bytes
  | .nested id => align id
  | .defect _ => 0

@[simp] lemma Demand.value_align (align : TypeId → Nat) (bytes : Nat) :
    (Demand.align bytes).value align = bytes := rfl

@[simp] lemma Demand.value_nested (align : TypeId → Nat) (id : TypeId) :
    (Demand.nested id).value align = align id := rfl

@[simp] lemma Demand.value_defect (align : TypeId → Nat) (rejection : Rejection) :
    (Demand.defect rejection).value align = 0 := rfl

namespace Field

/-- The demands of a well-formed field ask for its required alignment, those of a marker for
nothing. -/
lemma WellFormed.demands_le_iff {target : Target} {field : Field} (h : field.WellFormed target)
    (owner : String) (align : TypeId → Nat) {n : Nat} (hn : 1 ≤ n) :
    (∀ d ∈ field.demands target owner, d.value align ≤ n) ↔
      (field.isMarker = false → field.requiredAlign target align ≤ n) := by
  cases hbits : field.bitWidth with
  | some width =>
    obtain ⟨hforced, size, natural, htype, hwidth⟩ := h.bits width hbits
    have hsound := h.natural size (by simp [scalarAlign?, htype, isBitField, hbits])
    have hsize := h.size_pos size natural htype
    have hlt : ¬ size * 8 < width := by omega
    simp only [demands, hbits, hforced, typeDemands, htype, Nat.ne_of_gt hsize, if_false,
      bitDemands, naturalDemand_of_sound hsound.1 hsound.2, hlt, requiredAlign, isBitField,
      isMarker, Option.isSome_some, if_true, Option.getD_none]
    by_cases hw : width = 0
    · simp [hw]
    · have hunit : max 1 size = size := Nat.max_eq_right hsize
      simp [hw, hunit]
  | none =>
    have hmarker : field.isMarker = false := by simp [isMarker, hbits]
    have hrequired : ∀ natural, (max (field.forcedAlign.getD 1) natural ≤ n ↔
        natural ≤ n ∧ ∀ forced ∈ field.forcedAlign, forced ≤ n) := by
      intro natural
      rw [Nat.max_le, and_comm]
      cases field.forcedAlign with
      | none => simp [hn]
      | some forced => simp
    have hforced : ∀ forced ∈ field.forcedAlign, isPowerOfTwo forced = true :=
      fun forced hf => isPowerOfTwo_iff.mpr (h.forced forced hf)
    have hdemands : ∀ d : Demand, field.typeDemands target owner = [d] →
        ((∀ d ∈ field.demands target owner, d.value align ≤ n) ↔
          d.value align ≤ n ∧ ∀ forced ∈ field.forcedAlign, forced ≤ n) := by
      intro d hd
      cases hf : field.forcedAlign with
      | none => simp [demands, hbits, hf, hd]
      | some forced =>
        simp [demands, hbits, hf, hd, Demand.forced, hforced forced hf]
    rw [requiredAlign, hrequired]
    simp only [hmarker, true_implies]
    cases htype : field.type with
    | pointer => exact hdemands (.align target.pointerSize) (by simp [typeDemands, htype, hbits])
    | composite id => exact hdemands (.nested id) (by simp [typeDemands, htype, hbits])
    | scalar size natural =>
      have hsound := h.natural natural (by simp [scalarAlign?, htype, isBitField, hbits])
      have hsize := h.size_pos size natural htype
      simp only [isBitField, hbits, Option.isSome_none, if_false, Bool.false_eq_true]
      refine hdemands (.align natural) ?_
      simp [typeDemands, htype, hbits, Nat.ne_of_gt hsize, naturalDemand_of_sound hsound.1 hsound.2]

lemma WellFormed.nested_mem_demands {target : Target} {field : Field} (h : field.WellFormed target)
    (owner : String) {id : TypeId} (htype : field.type = .composite id) :
    .nested id ∈ field.demands target owner := by
  have hbits : field.bitWidth = none := by
    cases hbits : field.bitWidth with
    | none => rfl
    | some width =>
      obtain ⟨-, size, natural, htype', -⟩ := h.bits width hbits
      simp [htype] at htype'
  cases hf : field.forcedAlign <;> simp [demands, typeDemands, hbits, htype, hf]

/-- A field demands the alignment of another type only if it stores that type. -/
lemma type_of_nested_mem_demands {target : Target} {owner : String} {field : Field} {id : TypeId}
    (h : .nested id ∈ field.demands target owner) : field.type = .composite id := by
  have hnatural : ∀ align, field.naturalDemand target owner align ≠ .nested id := by
    intro align heq
    unfold naturalDemand at heq
    split at heq
    · cases heq
    · split at heq <;> cases heq
  have htype : .nested id ∈ field.typeDemands target owner → field.type = .composite id := by
    intro hmem
    unfold typeDemands at hmem
    split at hmem
    · split at hmem
      · simp at hmem
      · split at hmem
        · exact absurd (List.mem_singleton.mp hmem).symm (hnatural _)
        · unfold bitDemands at hmem
          split at hmem
          · split at hmem
            · simp at hmem
            · split at hmem <;> simp at hmem
          · exact absurd (List.mem_singleton.mp hmem).symm (hnatural _)
    · simp at hmem
    · next htype _ =>
      cases List.mem_singleton.mp hmem
      exact htype
    all_goals simp at hmem
  unfold demands at h
  split at h
  · simp at h
  · exact htype h
  · rcases List.mem_append.mp h with h | h
    · exact htype h
    · rw [List.mem_singleton, Demand.forced] at h
      split at h <;> cases h

end Field

namespace Composite

structure WellFormed (target : Target) (c : Composite) : Prop where
  exclusive : c.forcedAlign = none ∨ c.packing = none
  forced : ∀ align ∈ c.forcedAlign, align.isPowerOfTwo
  packing : ∀ align ∈ c.packing, align.isPowerOfTwo
  names : c.fields.Pairwise fun earlier later => earlier.name = later.name → earlier.name = ""
  fields : ∀ field ∈ c.fields, field.WellFormed target

/-- The rejection names a breach of the local rules by this type or by one of its fields. -/
def HasDefect (target : Target) (c : Composite) (rejection : Rejection) : Prop :=
  (∃ field ∈ c.fields, field.HasDefect target c.name rejection) ∨
    match rejection with
    | .forcedAlignmentAndPacking type => type = c.name ∧ c.forcedAlign.isSome ∧ c.packing.isSome
    | .nonPowerOfTwoAlignment type .wholeType align =>
      type = c.name ∧ c.forcedAlign = some align ∧ ¬ align.isPowerOfTwo
    | .nonPowerOfTwoAlignment type .packingClamp align =>
      type = c.name ∧ c.packing = some align ∧ ¬ align.isPowerOfTwo
    | .duplicateField type name =>
      type = c.name ∧ name ≠ "" ∧ ∃ before field after,
        c.fields = before ++ field :: after ∧ field.name = name ∧ ∃ f ∈ before, f.name = name
    | _ => False

lemma WellFormed.not_hasDefect {target : Target} {c : Composite} (h : c.WellFormed target)
    (rejection : Rejection) : ¬ c.HasDefect target rejection := by
  rintro (⟨field, hmem, hdefect⟩ | hdefect)
  · exact (h.fields field hmem).not_hasDefect rejection hdefect
  · split at hdefect
    · obtain ⟨-, hforced, hpacking⟩ := hdefect
      rcases h.exclusive with hnone | hnone <;> simp [hnone] at hforced hpacking
    · exact hdefect.2.2 (h.forced _ hdefect.2.1)
    · exact hdefect.2.2 (h.packing _ hdefect.2.1)
    · obtain ⟨-, hname, before, field, after, heq, rfl, f, hf, hsame⟩ := hdefect
      have hpairs := h.names
      rw [heq, List.pairwise_append] at hpairs
      exact hname (hsame ▸ hpairs.2.2 f hf field (List.mem_cons_self) hsame)
    · exact hdefect

/-- The demands of fields are those of each field, and a defect for every name given before. -/
lemma mem_fieldDemands {target : Target} {owner : String} {seen : List String}
    {fields : List Field} {d : Demand} :
    d ∈ fieldDemands target owner seen fields ↔
      (∃ field ∈ fields, d ∈ field.demands target owner) ∨
        ∃ before field after, fields = before ++ field :: after ∧ field.name ≠ "" ∧
          (field.name ∈ seen ∨ ∃ f ∈ before, f.name = field.name) ∧
          d = .defect (.duplicateField owner field.name) := by
  induction fields generalizing seen with
  | nil => simp [fieldDemands]
  | cons first rest ih =>
    have hanonymous : (!first.isAnonymous) = true ↔ first.name ≠ "" := by
      simp [Field.isAnonymous]
    have hrepeated : (d ∈ if !first.isAnonymous && seen.contains first.name then
        [Demand.defect (.duplicateField owner first.name)] else []) ↔
        first.name ≠ "" ∧ first.name ∈ seen ∧
          d = .defect (.duplicateField owner first.name) := by
      have hcond : (!first.isAnonymous && seen.contains first.name) = true ↔
          first.name ≠ "" ∧ first.name ∈ seen := by
        rw [Bool.and_eq_true, hanonymous, List.contains_iff_mem]
      split
      · next h => simp [hcond.mp h]
      · next h => simpa using fun hname hseen _ => h (hcond.mpr ⟨hname, hseen⟩)
    rw [fieldDemands, List.mem_append, List.mem_append, hrepeated, ih]
    constructor
    · rintro ((⟨hname, hseen, hd⟩ | hd) | ⟨field, hmem, hd⟩ | hd)
      · exact Or.inr ⟨[], first, rest, rfl, hname, Or.inl hseen, hd⟩
      · exact Or.inl ⟨first, List.mem_cons_self, hd⟩
      · exact Or.inl ⟨field, List.mem_cons_of_mem _ hmem, hd⟩
      · obtain ⟨before, field, after, rfl, hname, hgiven, hd⟩ := hd
        refine Or.inr ⟨first :: before, field, after, rfl, hname, ?_, hd⟩
        rcases hgiven with hseen | ⟨f, hf, hsame⟩
        · rcases List.mem_cons.mp hseen with hsame | hseen
          · exact Or.inr ⟨first, List.mem_cons_self, hsame.symm⟩
          · exact Or.inl hseen
        · exact Or.inr ⟨f, List.mem_cons_of_mem _ hf, hsame⟩
    · rintro (⟨field, hmem, hd⟩ | ⟨before, field, after, heq, hname, hgiven, hd⟩)
      · rcases List.mem_cons.mp hmem with rfl | hmem
        · exact Or.inl (Or.inr hd)
        · exact Or.inr (Or.inl ⟨field, hmem, hd⟩)
      · rcases before with _ | ⟨b, before⟩
        · obtain ⟨rfl, rfl⟩ := List.cons.inj heq
          have hseen : first.name ∈ seen := by simpa using hgiven
          exact Or.inl (Or.inl ⟨hname, hseen, hd⟩)
        · obtain ⟨rfl, rfl⟩ := List.cons.inj heq
          refine Or.inr (Or.inr ⟨before, field, after, rfl, hname, ?_, hd⟩)
          rcases hgiven with hseen | ⟨f, hf, hsame⟩
          · exact Or.inl (List.mem_cons_of_mem _ hseen)
          · rcases List.mem_cons.mp hf with rfl | hf
            · exact Or.inl (hsame ▸ List.mem_cons_self)
            · exact Or.inr ⟨f, hf, hsame⟩

/-- Every defect among the demands is a breach of the local rules. -/
lemma hasDefect_of_mem_demands {target : Target} {c : Composite} {rejection : Rejection}
    (h : .defect rejection ∈ c.demands target) : c.HasDefect target rejection := by
  have hfault : ∀ part align, .defect rejection ∈ directiveDefects.faults c part align →
      ∃ bytes, align = some bytes ∧ ¬ bytes.isPowerOfTwo ∧
        rejection = .nonPowerOfTwoAlignment c.name part bytes := by
    intro part align hmem
    unfold directiveDefects.faults at hmem
    split at hmem
    · simp at hmem
    · split at hmem
      · simp at hmem
      · next hpow =>
        cases List.mem_singleton.mp hmem
        exact ⟨_, rfl, fun hp => hpow (isPowerOfTwo_iff.mpr hp), rfl⟩
  simp only [demands, directiveDefects, List.mem_append] at h
  rcases h with ((((h | h) | h) | h) | h) | h
  · split at h
    · next hboth =>
      cases List.mem_singleton.mp h
      exact Or.inr ⟨rfl, by simpa using hboth⟩
    · simp at h
  · obtain ⟨bytes, hforced, hpow, rfl⟩ := hfault _ _ h
    exact Or.inr ⟨rfl, hforced, hpow⟩
  · obtain ⟨bytes, hpacking, hpow, rfl⟩ := hfault _ _ h
    exact Or.inr ⟨rfl, hpacking, hpow⟩
  · split at h <;> simp at h
  · simp at h
  · rcases mem_fieldDemands.mp h with ⟨field, hmem, hd⟩ | hd
    · exact Or.inl ⟨field, hmem, Field.hasDefect_of_mem_demands hd⟩
    · obtain ⟨before, field, after, heq, hname, hgiven, hd⟩ := hd
      cases hd
      exact Or.inr ⟨rfl, hname, before, field, after, heq, rfl, by simpa using hgiven⟩

lemma field_demands_subset {target : Target} {c : Composite} {field : Field}
    (h : field ∈ c.fields) : field.demands target c.name ⊆ c.demands target := by
  intro d hd
  exact List.mem_append_right _ (mem_fieldDemands.mpr (Or.inl ⟨field, h, hd⟩))

/-- A composite whose demands hold no defect is well formed. -/
lemma wellFormed_of_demands {target : Target} {c : Composite}
    (h : ∀ rejection, .defect rejection ∉ c.demands target) : c.WellFormed target := by
  have hdirective : ∀ rejection, .defect rejection ∉ c.directiveDefects :=
    fun rejection hmem => h rejection (by simp [demands, hmem])
  have hfault : ∀ part align, (∀ rejection,
      .defect rejection ∉ directiveDefects.faults c part align) →
      ∀ bytes ∈ align, bytes.isPowerOfTwo := by
    rintro part align hnone bytes rfl
    by_contra hpow
    exact hnone (.nonPowerOfTwoAlignment c.name part bytes)
      (by simp [directiveDefects.faults, isPowerOfTwo_iff, hpow])
  refine ⟨?_, hfault .wholeType _ ?_, hfault .packingClamp _ ?_, ?_, ?_⟩
  · by_contra hboth
    rw [not_or, ← ne_eq, ← ne_eq, Option.ne_none_iff_isSome, Option.ne_none_iff_isSome] at hboth
    exact hdirective (.forcedAlignmentAndPacking c.name) (by simp [directiveDefects, hboth])
  · exact fun rejection hmem => hdirective rejection (by simp [directiveDefects, hmem])
  · exact fun rejection hmem => hdirective rejection (by simp [directiveDefects, hmem])
  · rw [List.pairwise_iff_getElem]
    intro i j hi hj hlt hsame
    by_contra hname
    refine h (.duplicateField c.name c.fields[j].name) ?_
    refine List.mem_append_right _ (mem_fieldDemands.mpr (Or.inr ?_))
    refine ⟨c.fields.take j, c.fields[j], c.fields.drop (j + 1), ?_, hsame ▸ hname, Or.inr ?_, rfl⟩
    · rw [List.getElem_cons_drop, List.take_append_drop]
    · refine ⟨c.fields[i], ?_, hsame⟩
      rw [List.mem_take_iff_getElem]
      exact ⟨i, by omega, rfl⟩
  · intro field hmem
    have hfield : ∀ rejection, .defect rejection ∉ field.demands target c.name :=
      fun rejection hd => h rejection (field_demands_subset hmem hd)
    exact Field.wellFormed_of_demands hfield

/-- The types whose alignment a well-formed composite demands are those that it refers to. -/
lemma WellFormed.nested_mem_demands {target : Target} {c : Composite} (h : c.WellFormed target)
    {id : TypeId} (hid : id ∈ c.references) : .nested id ∈ c.demands target := by
  rcases List.mem_append.mp hid with hbase | hfield
  · obtain ⟨base, hmem, rfl⟩ := List.mem_map.mp hbase
    refine List.mem_append_left _ (List.mem_append_right _ ?_)
    exact List.mem_map.mpr ⟨base, hmem, rfl⟩
  · obtain ⟨field, hmem, hcomposite⟩ := List.mem_filterMap.mp hfield
    have htype : field.type = .composite id := by
      cases htype : field.type <;> simp [htype, FieldType.composite?] at hcomposite
      rw [hcomposite]
    exact field_demands_subset hmem ((h.fields field hmem).nested_mem_demands c.name htype)

lemma references_of_nested_mem_demands {target : Target} {c : Composite} {id : TypeId}
    (h : .nested id ∈ c.demands target) : id ∈ c.references := by
  have hfault : ∀ part align, .nested id ∉ directiveDefects.faults c part align := by
    intro part align hmem
    unfold directiveDefects.faults at hmem
    split at hmem
    · simp at hmem
    · split at hmem <;> simp at hmem
  simp only [demands, directiveDefects, List.mem_append, hfault, or_false] at h
  rcases h with ((h | h) | h) | h
  · split at h <;> simp at h
  · split at h <;> simp at h
  · obtain ⟨base, hmem, heq⟩ := List.mem_map.mp h
    cases heq
    exact mem_references_of_base hmem
  · rcases mem_fieldDemands.mp h with ⟨field, hmem, hd⟩ | ⟨_, _, _, _, _, _, heq⟩
    · exact mem_references_of_field hmem (Field.type_of_nested_mem_demands hd)
    · cases heq

/-- The alignment that the parts of a composite require of it, given those of the types below:
the largest asked for by its dispatch slot, its bases and its members. -/
def requiredAlign (target : Target) (align : TypeId → Nat) (c : Composite) : Nat :=
  ((if c.introducesDispatch then [target.pointerSize] else [])
    ++ c.bases.map (fun base => align base.type)
    ++ c.members.map (Field.requiredAlign target align)).foldl max 1

/-- The alignment of a composite whose parts require `required`. -/
def finalAlign (c : Composite) (required : Nat) : Nat :=
  match c.forcedAlign, c.packing with
  | some forced, _ => forced
  | none, some clamp => min required clamp
  | none, none => required

lemma requiredAlign_le_iff {target : Target} {align : TypeId → Nat} {c : Composite} {n : Nat} :
    c.requiredAlign target align ≤ n ↔ 1 ≤ n ∧
      (c.introducesDispatch = true → target.pointerSize ≤ n) ∧
      (∀ base ∈ c.bases, align base.type ≤ n) ∧
      ∀ field ∈ c.members, field.requiredAlign target align ≤ n := by
  rw [requiredAlign, foldl_max_le_iff]
  cases c.introducesDispatch <;> simp [or_imp, forall_and]

/-- The required alignment depends only on the types referred to. -/
lemma requiredAlign_congr {target : Target} {c : Composite} {align align' : TypeId → Nat}
    (h : ∀ id ∈ c.references, align id = align' id) :
    c.requiredAlign target align = c.requiredAlign target align' := by
  have hbases : c.bases.map (fun base => align base.type) =
      c.bases.map fun base => align' base.type :=
    List.map_congr_left fun base hmem => h _ (mem_references_of_base hmem)
  have hfields : c.members.map (Field.requiredAlign target align) =
      c.members.map (Field.requiredAlign target align') := by
    refine List.map_congr_left fun field hmem => ?_
    have hfield := (List.mem_filter.mp hmem).1
    unfold Field.requiredAlign
    cases htype : field.type with
    | composite id =>
      dsimp only
      rw [h id (mem_references_of_field hfield htype)]
    | _ => rfl
  rw [requiredAlign, requiredAlign, hbases, hfields]

/-- What the demands of a well-formed composite ask for is its required alignment. -/
lemma WellFormed.foldl_demands {target : Target} {c : Composite} (h : c.WellFormed target)
    (align : TypeId → Nat) :
    ((c.demands target).map (Demand.value align)).foldl max 1 = c.requiredAlign target align := by
  have hfault : ∀ part align', ∀ d ∈ directiveDefects.faults c part align',
      d.value align = 0 := by
    intro part align' d hmem
    unfold directiveDefects.faults at hmem
    split at hmem
    · simp at hmem
    · split at hmem <;> simp at hmem
      rw [hmem, Demand.value_defect]
  have hdirective : ∀ d ∈ c.directiveDefects, d.value align = 0 := by
    intro d hmem
    simp only [directiveDefects, List.mem_append] at hmem
    rcases hmem with (hmem | hmem) | hmem
    · split at hmem <;> simp at hmem
      rw [hmem, Demand.value_defect]
    · exact hfault _ _ d hmem
    · exact hfault _ _ d hmem
  refine eq_of_forall_ge_iff fun n => ?_
  rw [foldl_max_le_iff, requiredAlign_le_iff]
  refine and_congr_right fun hn => ?_
  have hfields : (∀ d ∈ fieldDemands target c.name [] c.fields, d.value align ≤ n) ↔
      ∀ field ∈ c.members, field.requiredAlign target align ≤ n := by
    simp only [members, List.mem_filter, Bool.not_eq_true']
    constructor
    · rintro hall field ⟨hmem, hmarker⟩
      refine ((h.fields field hmem).demands_le_iff c.name align hn).mp ?_ hmarker
      exact fun d hd => hall d (mem_fieldDemands.mpr (Or.inl ⟨field, hmem, hd⟩))
    · intro hall d hd
      rcases mem_fieldDemands.mp hd with ⟨field, hmem, hd⟩ | ⟨_, _, _, _, _, _, rfl⟩
      · refine ((h.fields field hmem).demands_le_iff c.name align hn).mpr ?_ d hd
        exact fun hmarker => hall field ⟨hmem, hmarker⟩
      · exact Nat.zero_le n
  have hdirective' : ∀ d ∈ c.directiveDefects, d.value align ≤ n :=
    fun d hd => (hdirective d hd).trans_le (Nat.zero_le n)
  rw [← hfields]
  simp only [demands, List.mem_map, List.mem_append, forall_exists_index, and_imp,
    forall_apply_eq_imp_iff₂, or_imp, forall_and]
  cases c.introducesDispatch <;> simp [iff_true_intro hdirective', and_assoc]

/-- A type requires at least the alignment of every type that it refers to. -/
lemma WellFormed.align_le_requiredAlign {target : Target} {c : Composite} (h : c.WellFormed target)
    (align : TypeId → Nat) {id : TypeId} (hid : id ∈ c.references) :
    align id ≤ c.requiredAlign target align := by
  rw [← h.foldl_demands align]
  have hdemand : Demand.nested id ∈ c.demands target := h.nested_mem_demands hid
  exact (foldl_max_le_iff.mp (le_refl _)).2 _
    (List.mem_map_of_mem (f := Demand.value align) hdemand)

lemma settleAlign_eq_ok {c : Composite} {required align : Nat} :
    c.settleAlign required = .ok align ↔
      (∀ forced ∈ c.forcedAlign, required ≤ forced) ∧ align = c.finalAlign required := by
  unfold settleAlign finalAlign
  cases hforced : c.forcedAlign with
  | none => cases hpacking : c.packing <;> simp [eq_comm]
  | some forced =>
    by_cases hlt : forced < required
    · simp [hlt, Nat.not_le.mpr hlt]
    · simp [hlt, Nat.le_of_not_lt hlt, eq_comm]

lemma settleAlign_eq_error {c : Composite} {required : Nat} {rejection : Rejection}
    (h : c.settleAlign required = .error rejection) :
    ∃ forced, c.forcedAlign = some forced ∧ forced < required ∧
      rejection = .forcedAlignmentTooSmall c.name forced required := by
  unfold settleAlign at h
  split at h
  · next forced hforced =>
    split at h
    · next hlt => exact ⟨forced, hforced, hlt, (Except.error.inj h).symm⟩
    · cases h
  · cases h
  · cases h

end Composite

end ObjectLayout
