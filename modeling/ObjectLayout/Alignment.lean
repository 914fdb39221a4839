/-!
# Alignment arithmetic

Rounding adds the bits below an alignment and clears them in the sum. Where the alignment is a power
of two this gives the least multiple of the alignment that is not below the value. The alignments
that a table states are checked to be powers of two; the pointer size of a target is an alignment,
too, and nothing checks it. Rounding to any other number never goes back, but it need not reach a
multiple, and of two values the larger one may round to less.
-/
namespace ObjectLayout

/-- A power of two is a single bit: the one at its own binary logarithm. -/
def isPowerOfTwo (n : Nat) : Bool := n == 1 <<< n.log2

/-- The bits below an alignment. Below zero these are all bits of a word, as one less than zero
wraps around. -/
def lowBits (align : Nat) : Nat := if align = 0 then UInt64.size - 1 else align - 1

/-- Add the bits below `align` and clear them in the sum. -/
def roundUp (value align : Nat) : Nat :=
  let sum := value + lowBits align
  sum - (sum &&& lowBits align)

/-- The bytes between `value` and what it rounds up to. -/
def paddingBefore (value align : Nat) : Nat := roundUp value align - value

/-- The least multiple of `unit` that is not below `value`. -/
def nextMultiple (value unit : Nat) : Nat := (value + (unit - 1)) / unit * unit

theorem pos_of_isPowerOfTwo {n : Nat} (h : isPowerOfTwo n = true) : 0 < n := by
  rcases Nat.eq_zero_or_pos n with rfl | hn
  · exact absurd h (by decide)
  · exact hn

section

variable {value larger unit bound : Nat}

theorem dvd_nextMultiple (value unit : Nat) : unit ∣ nextMultiple value unit :=
  Nat.dvd_mul_left unit _

theorem le_nextMultiple (h : 0 < unit) (value : Nat) : value ≤ nextMultiple value unit := by
  have := Nat.div_add_mod (value + (unit - 1)) unit
  have := Nat.mod_lt (value + (unit - 1)) h
  have := Nat.mul_comm ((value + (unit - 1)) / unit) unit
  unfold nextMultiple
  omega

theorem nextMultiple_le_of_dvd (h : 0 < unit) (hle : value ≤ bound) (hdvd : unit ∣ bound) :
    nextMultiple value unit ≤ bound := by
  obtain ⟨k, rfl⟩ := hdvd
  have hlt : value + (unit - 1) < unit * (k + 1) := by
    rw [Nat.mul_succ]; omega
  have hdiv : (value + (unit - 1)) / unit < k + 1 := Nat.div_lt_of_lt_mul hlt
  unfold nextMultiple
  rw [Nat.mul_comm unit k]
  exact Nat.mul_le_mul_right unit (Nat.le_of_lt_succ hdiv)

theorem nextMultiple_mono (h : value ≤ larger) (unit : Nat) :
    nextMultiple value unit ≤ nextMultiple larger unit :=
  Nat.mul_le_mul_right unit (Nat.div_le_div_right (Nat.add_le_add_right h _))

theorem nextMultiple_of_dvd (h : 0 < unit) (hdvd : unit ∣ value) :
    nextMultiple value unit = value :=
  Nat.le_antisymm (nextMultiple_le_of_dvd h (Nat.le_refl _) hdvd) (le_nextMultiple h value)

@[simp] theorem nextMultiple_zero (unit : Nat) : nextMultiple 0 unit = 0 := by
  rcases Nat.eq_zero_or_pos unit with rfl | h
  · rfl
  · exact nextMultiple_of_dvd h (Nat.dvd_zero unit)

end

section

variable {value larger align bound : Nat}

/-- What is cleared is no more than what was added. -/
theorem le_roundUp (value align : Nat) : value ≤ roundUp value align := by
  have := Nat.and_le_right (n := value + lowBits align) (m := lowBits align)
  simp only [roundUp]
  omega

theorem roundUp_lt (h : 0 < align) (value : Nat) : roundUp value align < value + align := by
  simp only [roundUp, lowBits, Nat.ne_of_gt h, if_false]
  omega

@[simp] theorem roundUp_zero (align : Nat) : roundUp 0 align = 0 := by
  simp [roundUp]

/-- For a power of two, clearing the bits below it in the sum is rounding to a multiple. -/
theorem roundUp_eq_nextMultiple (h : align.isPowerOfTwo) (value : Nat) :
    roundUp value align = nextMultiple value align := by
  have hpos := Nat.pos_of_isPowerOfTwo h
  obtain ⟨k, rfl⟩ := h
  have hdiv := Nat.div_add_mod' (value + (2 ^ k - 1)) (2 ^ k)
  simp only [roundUp, nextMultiple, lowBits, Nat.ne_of_gt hpos, if_false,
    Nat.and_two_pow_sub_one_eq_mod]
  omega

theorem dvd_roundUp (h : align.isPowerOfTwo) (value : Nat) : align ∣ roundUp value align :=
  roundUp_eq_nextMultiple h value ▸ dvd_nextMultiple value align

theorem roundUp_le_of_dvd (h : align.isPowerOfTwo) (hle : value ≤ bound) (hdvd : align ∣ bound) :
    roundUp value align ≤ bound :=
  roundUp_eq_nextMultiple h value ▸ nextMultiple_le_of_dvd (Nat.pos_of_isPowerOfTwo h) hle hdvd

theorem roundUp_mono (h : align.isPowerOfTwo) (hle : value ≤ larger) :
    roundUp value align ≤ roundUp larger align := by
  rw [roundUp_eq_nextMultiple h, roundUp_eq_nextMultiple h]
  exact nextMultiple_mono hle align

theorem roundUp_of_dvd (h : align.isPowerOfTwo) (hdvd : align ∣ value) :
    roundUp value align = value :=
  Nat.le_antisymm (roundUp_le_of_dvd h (Nat.le_refl _) hdvd) (le_roundUp value align)

end

namespace Word

/-- The sum of two words, unless it is beyond the words. -/
def add? (a b : UInt64) : Option UInt64 :=
  if a.toNat + b.toNat < UInt64.size then some (a + b) else none

/-- Clear the bits below the bit of an alignment. -/
def clearBelow (align value : UInt64) : UInt64 := value &&& ~~~(align - 1)

/-- Round a word up in the arithmetic of words, where a sum may wrap around. The sum is taken from
the left, so it wraps around already at the last multiple of the alignment; a build that checks its
sums stops there instead. -/
def alignUp (value align : UInt64) : UInt64 := clearBelow align (value + align - 1)

/-- Round a word up, unless the sum is beyond the words. -/
def alignUp? (value align : UInt64) : Option UInt64 :=
  (add? value (align - 1)).map (clearBelow align)

/-- The bytes between a word and the one that it rounds up to. -/
def paddingFor (value align : UInt64) : UInt64 := alignUp value align - value

end Word

end ObjectLayout
