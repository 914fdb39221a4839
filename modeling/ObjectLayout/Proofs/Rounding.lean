import Mathlib.Order.Bounds.Basic
import Mathlib.Order.MinMax
import ObjectLayout.Target
import ObjectLayout.Proofs.LocalRules

/-!
# Rounding to alignments

A power of two divides every larger one, so rounding is monotone in the alignment as well as in the
value. Words round as numbers do, whatever the alignment is: a mask of low bits leaves a sum beyond
the words beyond them. For a power of two the result is the least multiple.
-/
namespace ObjectLayout

section

variable {a b : Nat}

lemma isPowerOfTwo_max (ha : a.isPowerOfTwo) (hb : b.isPowerOfTwo) : (max a b).isPowerOfTwo := by
  rcases max_choice a b with h | h <;> rwa [h]

lemma isPowerOfTwo_min (ha : a.isPowerOfTwo) (hb : b.isPowerOfTwo) : (min a b).isPowerOfTwo := by
  rcases min_choice a b with h | h <;> rwa [h]

lemma dvd_of_isPowerOfTwo (ha : a.isPowerOfTwo) (hb : b.isPowerOfTwo) (h : a ≤ b) : a ∣ b := by
  obtain ⟨i, rfl⟩ := ha
  obtain ⟨j, rfl⟩ := hb
  exact Nat.pow_dvd_pow 2 ((Nat.pow_le_pow_iff_right Nat.one_lt_two).mp h)

/-- Rounding more to a coarser alignment gives no less. -/
lemma roundUp_le_roundUp {value larger : Nat} (hvalue : value ≤ larger) (ha : a.isPowerOfTwo)
    (hb : b.isPowerOfTwo) (h : a ≤ b) : roundUp value a ≤ roundUp larger b :=
  roundUp_le_of_dvd ha (hvalue.trans (le_roundUp larger b))
    (Nat.dvd_trans (dvd_of_isPowerOfTwo ha hb h) (dvd_roundUp hb larger))

lemma isLeast_roundUp (h : a.isPowerOfTwo) (value : Nat) :
    IsLeast {n | a ∣ n ∧ value ≤ n} (roundUp value a) :=
  ⟨⟨dvd_roundUp h value, le_roundUp value a⟩,
    fun _ hn => roundUp_le_of_dvd h hn.2 hn.1⟩

/-- The size of an object is the least one that holds the data and keeps the alignment. -/
lemma isLeast_roundUp_max_one (h : a.isPowerOfTwo) (dataSize : Nat) :
    IsLeast {n | 0 < n ∧ a ∣ n ∧ dataSize ≤ n} (roundUp (max dataSize 1) a) := by
  have hle := le_roundUp (max dataSize 1) a
  refine ⟨⟨by omega, dvd_roundUp h _, by omega⟩, ?_⟩
  rintro n ⟨hpos, hdvd, hdata⟩
  exact roundUp_le_of_dvd h (max_le hdata hpos) hdvd

end

namespace Word

variable {value align r : UInt64}

/-- A word is what a mask keeps of it and what the mask clears. -/
lemma toNat_and_not_add (value mask : UInt64) :
    (value &&& ~~~mask).toNat + (value.toNat &&& mask.toNat) = value.toNat := by
  have hdisjoint : (value.toBitVec &&& ~~~mask.toBitVec) &&&
      (value.toBitVec &&& mask.toBitVec) = 0#64 := by
    ext i hi
    cases hbit : mask.toBitVec[i] <;> simp [hbit]
  have hjoin : (value.toBitVec &&& ~~~mask.toBitVec) ||| (value.toBitVec &&& mask.toBitVec) =
      value.toBitVec := by
    ext i hi
    cases hbit : mask.toBitVec[i] <;> simp [hbit]
  have hsum := BitVec.toNat_add_of_and_eq_zero hdisjoint
  rw [BitVec.add_eq_or_of_and_eq_zero _ _ hdisjoint, hjoin] at hsum
  exact hsum.symm

/-- One less than an alignment is the mask of the bits below it, also for zero. -/
lemma toNat_sub_one (align : UInt64) : (align - 1).toNat = lowBits align.toNat := by
  have hlt := align.toNat_lt
  rw [UInt64.toNat_sub, UInt64.toNat_one, lowBits, UInt64.size]
  split <;> omega

/-- Clearing low bits takes away what they amount to. -/
lemma toNat_clearBelow (align value : UInt64) :
    (clearBelow align value).toNat = value.toNat - (value.toNat &&& lowBits align.toNat) := by
  have hsplit := toNat_and_not_add value (align - 1)
  rw [toNat_sub_one] at hsplit
  rw [clearBelow]
  omega

/-- Clearing low bits leaves a sum beyond the words where it is. -/
lemma sum_lt_size_iff (value align : UInt64) :
    value.toNat + lowBits align.toNat < UInt64.size ↔
      roundUp value.toNat align.toNat < UInt64.size := by
  have hbits : lowBits align.toNat < UInt64.size := toNat_sub_one align ▸ (align - 1).toNat_lt
  simp only [roundUp]
  generalize value.toNat + lowBits align.toNat = sum
  have hcleared : (sum &&& lowBits align.toNat) ≤ sum % UInt64.size := by
    have hlow := Nat.and_mod_two_pow (a := sum) (b := lowBits align.toNat) (n := 64)
    have hle := Nat.and_le_right (n := sum) (m := lowBits align.toNat)
    change _ % UInt64.size = sum % UInt64.size &&& lowBits align.toNat % UInt64.size at hlow
    rw [Nat.mod_eq_of_lt (hle.trans_lt hbits), Nat.mod_eq_of_lt hbits] at hlow
    exact hlow ▸ Nat.and_le_left
  rw [UInt64.size] at hcleared hbits ⊢
  omega

/-- Rounding words is rounding numbers, as far as the result is a word; this holds for every
alignment. -/
theorem map_alignUp? (value align : UInt64) :
    (alignUp? value align).map UInt64.toNat =
      if roundUp value.toNat align.toNat < UInt64.size then
        some (roundUp value.toNat align.toNat) else none := by
  have hbits := toNat_sub_one align
  have hiff := sum_lt_size_iff value align
  rw [alignUp?, add?, hbits]
  by_cases hfits : value.toNat + lowBits align.toNat < UInt64.size
  · have hsum : (value + (align - 1)).toNat = value.toNat + lowBits align.toNat := by
      rw [UInt64.toNat_add, hbits]
      exact Nat.mod_eq_of_lt hfits
    rw [if_pos hfits, if_pos (hiff.mp hfits), Option.map_some, Option.map_some, toNat_clearBelow,
      hsum]
    rfl
  · rw [if_neg hfits, if_neg (hiff.not.mp hfits)]
    rfl

/-- What a target does with offsets is what the words do, for every alignment. -/
theorem roundUp?_eq_alignUp? {target : Target} (h : target.addressSpace = some UInt64.size)
    (value align : UInt64) :
    target.roundUp? value.toNat align.toNat = (alignUp? value align).map UInt64.toNat := by
  rw [map_alignUp?, Target.roundUp?, Target.offset?, Target.holds, h]
  simp

/-- A word rounds up to the word that is the rounded number, if there is one. -/
theorem alignUp?_eq_some_iff :
    alignUp? value align = some r ↔ r.toNat = roundUp value.toNat align.toNat := by
  have hmap := map_alignUp? value align
  cases hround : alignUp? value align with
  | some word =>
    rw [hround, Option.map_some] at hmap
    split at hmap
    · rw [Option.some.injEq, ← UInt64.toNat_inj, Option.some.inj hmap, eq_comm]
    · cases hmap
  | none =>
    rw [hround, Option.map_none] at hmap
    split at hmap
    · cases hmap
    · next hbeyond => exact iff_of_false (by simp) fun heq => hbeyond (heq ▸ r.toNat_lt)

lemma alignUp?_eq_none_iff :
    alignUp? value align = none ↔ UInt64.size ≤ roundUp value.toNat align.toNat := by
  have hmap := congrArg Option.isSome (map_alignUp? value align)
  rw [← not_lt, ← Option.not_isSome_iff_eq_none]
  rw [Option.isSome_map] at hmap
  rw [hmap]
  simp

/-- Where the words wrap around, adding the alignment and taking one away is adding one less. -/
lemma alignUp_eq (value align : UInt64) :
    alignUp value align = clearBelow align (value + (align - 1)) := by
  rw [alignUp, UInt64.sub_eq_add_neg, UInt64.sub_eq_add_neg, UInt64.add_assoc]

lemma alignUp_of_alignUp? (h : alignUp? value align = some r) : alignUp value align = r := by
  obtain ⟨sum, hsum, rfl⟩ := Option.map_eq_some_iff.mp h
  rw [add?, Option.ite_none_right_eq_some] at hsum
  rw [alignUp_eq, ← Option.some.inj hsum.2]

/-- The padding of words is that of numbers. -/
lemma toNat_paddingFor (hround : alignUp? value align = some r) :
    (paddingFor value align).toNat = paddingBefore value.toNat align.toNat := by
  have hr := alignUp?_eq_some_iff.mp hround
  have hle : value ≤ r := by
    rw [UInt64.le_iff_toNat_le, hr]
    exact le_roundUp _ _
  rw [paddingFor, alignUp_of_alignUp? hround, UInt64.toNat_sub_of_le _ _ hle, hr]
  rfl

/-- The sum of a word and an alignment is beyond the words at one word at which the least multiple
is not: at the last multiple of the alignment. -/
lemma add?_eq_none_iff (h : align.toNat.isPowerOfTwo) (hround : alignUp? value align = some r) :
    add? value align = none ↔ value.toNat + align.toNat = UInt64.size := by
  have hpos := Nat.pos_of_isPowerOfTwo h
  have hfits : value.toNat + lowBits align.toNat < UInt64.size := by
    rw [sum_lt_size_iff, ← alignUp?_eq_some_iff.mp hround]
    exact r.toNat_lt
  rw [lowBits, if_neg (Nat.ne_of_gt hpos)] at hfits
  have hsum : add? value align = none ↔ UInt64.size ≤ value.toNat + align.toNat := by
    simp [add?]
  rw [hsum]
  omega

/-- Larger words and coarser alignments round to no less. -/
lemma alignUp?_mono {larger coarser r' : UInt64} (h : align.toNat.isPowerOfTwo)
    (hcoarser : coarser.toNat.isPowerOfTwo) (hvalue : value ≤ larger) (halign : align ≤ coarser)
    (hround : alignUp? larger coarser = some r') : ∃ r, alignUp? value align = some r ∧ r ≤ r' := by
  have hr' := alignUp?_eq_some_iff.mp hround
  have hle := roundUp_le_roundUp (UInt64.le_iff_toNat_le.mp hvalue) h hcoarser
    (UInt64.le_iff_toNat_le.mp halign)
  rw [← hr'] at hle
  cases hfiner : alignUp? value align with
  | none =>
    have hbeyond := alignUp?_eq_none_iff.mp hfiner
    exact absurd (hle.trans_lt r'.toNat_lt) (not_lt.mpr hbeyond)
  | some r =>
    refine ⟨r, rfl, UInt64.le_iff_toNat_le.mpr ?_⟩
    rw [alignUp?_eq_some_iff.mp hfiner]
    exact hle

/-- A word rounds up to the least multiple of an alignment that is not below it, unless that is
beyond the words. Where there is one, the arithmetic that wraps around comes to the same word, also
for the last multiple, at which its sum does wrap around; the padding leads there and is below the
alignment; and rounding once more changes nothing. Larger words and coarser alignments round to no
less. Rounding words is what a target with 64 bits of address space does with offsets. -/
theorem rounding_exact (value align : UInt64) (h : align.toNat.isPowerOfTwo) :
    (∃ n, IsLeast {m | align.toNat ∣ m ∧ value.toNat ≤ m} n ∧
      (alignUp? value align).map UInt64.toNat = if n < UInt64.size then some n else none) ∧
    (∀ r, alignUp? value align = some r →
      alignUp value align = r ∧
        (add? value align = none ↔ value.toNat + align.toNat = UInt64.size) ∧
        value.toNat + (paddingFor value align).toNat = r.toNat ∧
        paddingFor value align < align ∧ alignUp? r align = some r) ∧
    (∀ larger coarser r', coarser.toNat.isPowerOfTwo → value ≤ larger → align ≤ coarser →
      alignUp? larger coarser = some r' → ∃ r, alignUp? value align = some r ∧ r ≤ r') ∧
    ∀ target : Target, target.addressSpace = some UInt64.size →
      target.roundUp? value.toNat align.toNat = (alignUp? value align).map UInt64.toNat := by
  have hpos := Nat.pos_of_isPowerOfTwo h
  refine ⟨⟨_, isLeast_roundUp h value.toNat, map_alignUp? value align⟩, fun r hround => ?_,
    fun larger coarser r' hcoarser hvalue halign hround =>
      alignUp?_mono h hcoarser hvalue halign hround, fun target hspace => ?_⟩
  · have hr := alignUp?_eq_some_iff.mp hround
    have hpadding := toNat_paddingFor hround
    have hle := le_roundUp value.toNat align.toNat
    have hlt := roundUp_lt hpos value.toNat
    rw [paddingBefore] at hpadding
    refine ⟨alignUp_of_alignUp? hround, add?_eq_none_iff h hround, by omega, ?_, ?_⟩
    · rw [UInt64.lt_iff_toNat_lt]
      omega
    · rw [alignUp?_eq_some_iff, hr]
      exact (roundUp_of_dvd h (dvd_roundUp h _)).symm
  · exact roundUp?_eq_alignUp? hspace value align

/-- Around the last multiple of eight: below it a word rounds up to it, it rounds to itself although
its sum with eight wraps around, and above it no word rounds to a word. -/
theorem rounding_exact_top :
    let last : UInt64 := 18446744073709551608
    (8 : UInt64).toNat.isPowerOfTwo ∧
      IsLeast {m | (8 : UInt64).toNat ∣ m ∧ (last - 6).toNat ≤ m} last.toNat ∧
      alignUp? (last - 6) 8 = some last ∧ alignUp (last - 6) 8 = last ∧
      (last - 6).toNat + (paddingFor (last - 6) 8).toNat = last.toNat ∧
      paddingFor (last - 6) 8 < 8 ∧ alignUp? last 8 = some last ∧ alignUp last 8 = last ∧
      add? last 8 = none ∧ (∃ r, alignUp? (last - 7) 4 = some r ∧ r ≤ last) ∧
      alignUp? (last + 1) 8 = none ∧
      Target.lp64.roundUp? (last + 1).toNat (8 : UInt64).toNat = none := by
  intro last
  have h8 : (8 : UInt64).toNat.isPowerOfTwo := ⟨3, rfl⟩
  have h4 : (4 : UInt64).toNat.isPowerOfTwo := ⟨2, rfl⟩
  have hbelow : alignUp? (last - 6) 8 = some last := by decide +kernel
  have habove : alignUp? (last + 1) 8 = none := by decide +kernel
  obtain ⟨⟨n, hleast, hn⟩, hwords, -, -⟩ := rounding_exact (last - 6) 8 h8
  obtain ⟨hwraps, -, hpadding, hlt, hagain⟩ := hwords last hbelow
  obtain ⟨-, hlastWords, -, -⟩ := rounding_exact last 8 h8
  obtain ⟨hlast, hsum, -⟩ := hlastWords last hagain
  obtain ⟨-, -, hmono, -⟩ := rounding_exact (last - 7) 4 h4
  obtain ⟨-, -, -, htarget⟩ := rounding_exact (last + 1) 8 h8
  have hlastIs : n = last.toNat := by
    rw [hbelow, Option.map_some] at hn
    split at hn
    · exact (Option.some.inj hn).symm
    · cases hn
  refine ⟨h8, hlastIs ▸ hleast, hbelow, hwraps, hpadding, hlt, hagain, hlast,
    hsum.mpr (by decide +kernel),
    hmono (last - 6) 8 last h8 (by decide +kernel) (by decide +kernel) hbelow, habove, ?_⟩
  rw [htarget .lp64 rfl, habove, Option.map_none]

end Word

end ObjectLayout
