import Mathlib.Algebra.Order.BigOperators.Group.List
import Mathlib.Algebra.Order.Group.Nat
import Mathlib.Data.Nat.ModEq
import Mathlib.Tactic.Common

/-!
# One's-complement sums of 16-bit words

One's-complement addition of 16-bit words carries the overflow around to the low end
(`onesAdd`), and the sum of a list of words adds them one after the other (`onesSum`). The sum
depends only on the plain sum of the words: it is the number of 16 bits that has the same
residue modulo 65535 and is zero only for zero (`onesSum_eq_residue`).

Two facts follow. A sum may be folded to 16 bits at any time (`residue_add`). Swapping the bytes
of every word swaps the bytes of the sum (`residue_sum_swap`), because a swap is a multiplication
by 256 modulo 65535. So words may be summed in either byte order.

Bytes are taken as words with the high byte first (`wordsBE`) or the low byte first (`wordsLE`).
An odd byte at the end is padded with a zero byte.
-/

set_option autoImplicit false

namespace VineyardLoader

/-! ## Sums -/

/-- The sum of two words, with the carry added at the low end. -/
def onesAdd (first second : Nat) : Nat :=
  if first + second < 2 ^ 16 then first + second else first + second - 0xFFFF

/-- The one's-complement sum of a list of words. -/
def onesSum (words : List Nat) : Nat := words.foldl onesAdd 0

/-- The number of 16 bits that stands for a sum. -/
def residue (sum : Nat) : Nat := if sum = 0 then 0 else (sum - 1) % 0xFFFF + 1

theorem residue_lt (sum : Nat) : residue sum < 2 ^ 16 := by
  unfold residue
  split <;> omega

theorem residue_of_lt {sum : Nat} (small : sum < 2 ^ 16) : residue sum = sum := by
  unfold residue
  split <;> omega

theorem residue_mod (sum : Nat) : residue sum % 0xFFFF = sum % 0xFFFF := by
  unfold residue
  split <;> omega

theorem residue_eq_zero {sum : Nat} : residue sum = 0 ↔ sum = 0 := by
  unfold residue
  split <;> omega

/-- The residue is the only number of 16 bits of its class that is zero only for zero. -/
theorem residue_eq {sum value : Nat} (small : value < 2 ^ 16)
    (same : value % 0xFFFF = sum % 0xFFFF) (zero : value = 0 ↔ sum = 0) : residue sum = value := by
  unfold residue
  split <;> omega

/-- A sum may be folded on the way. -/
theorem residue_add (first second : Nat) :
    residue (residue first + second) = residue (first + second) := by
  have same := residue_mod first
  have zero := @residue_eq_zero first
  refine residue_eq (residue_lt _) ?_ ?_
  · rw [residue_mod]
    omega
  · rw [residue_eq_zero]
    omega

/-- The residue is all ones exactly for the positive multiples of 65535. -/
theorem residue_eq_ones {sum : Nat} (positive : 0 < sum) : residue sum = 0xFFFF ↔ 0xFFFF ∣ sum := by
  unfold residue
  split <;> omega

theorem onesAdd_eq_residue {first second : Nat} (firstSmall : first < 2 ^ 16)
    (secondSmall : second < 2 ^ 16) : onesAdd first second = residue (first + second) := by
  unfold onesAdd residue
  split <;> split <;> omega

/-- **The one's-complement sum is the residue of the plain sum.** -/
theorem onesSum_eq_residue {words : List Nat} (small : ∀ word ∈ words, word < 2 ^ 16) :
    onesSum words = residue words.sum := by
  have loop : ∀ (words : List Nat), (∀ word ∈ words, word < 2 ^ 16) → ∀ start,
      words.foldl onesAdd (residue start) = residue (start + words.sum) := by
    intro words
    induction words with
    | nil => intro _ start; simp
    | cons word words ih =>
        intro small start
        have here : word < 2 ^ 16 := small word List.mem_cons_self
        rw [List.foldl_cons, onesAdd_eq_residue (residue_lt start) here, residue_add,
          ih fun other member => small other (List.mem_cons_of_mem _ member), List.sum_cons,
          Nat.add_assoc]
  have whole := loop words small 0
  rwa [Nat.zero_add] at whole

/-- A sum and the complement of its residue make all ones. -/
theorem residue_add_complement (sum : Nat) : residue (sum + (0xFFFF - residue sum)) = 0xFFFF := by
  have small := residue_lt sum
  have same := residue_mod sum
  have zero := @residue_eq_zero sum
  refine residue_eq (by omega) ?_ ?_
  · omega
  · omega

/-! ## Byte order -/

/-- A word with its two bytes swapped. -/
def swapBytes (word : Nat) : Nat := word % 256 * 256 + word / 256 % 256

theorem swapBytes_lt (word : Nat) : swapBytes word < 2 ^ 16 := by
  simp only [swapBytes]
  omega

theorem swapBytes_pair {high low : Nat} (highSmall : high < 256) (lowSmall : low < 256) :
    swapBytes (high * 256 + low) = low * 256 + high := by
  simp only [swapBytes]
  omega

/-- A word is its two bytes. -/
theorem exists_pair {word : Nat} (small : word < 2 ^ 16) :
    ∃ high low, high < 256 ∧ low < 256 ∧ word = high * 256 + low :=
  ⟨word / 256, word % 256, by omega, by omega, by omega⟩

theorem swapBytes_swapBytes {word : Nat} (small : word < 2 ^ 16) :
    swapBytes (swapBytes word) = word := by
  obtain ⟨high, low, highSmall, lowSmall, rfl⟩ := exists_pair small
  rw [swapBytes_pair highSmall lowSmall, swapBytes_pair lowSmall highSmall]

theorem swapBytes_mod {word : Nat} (small : word < 2 ^ 16) :
    swapBytes word % 0xFFFF = word * 256 % 0xFFFF := by
  obtain ⟨high, low, highSmall, lowSmall, rfl⟩ := exists_pair small
  rw [swapBytes_pair highSmall lowSmall]
  omega

theorem swapBytes_eq_zero {word : Nat} (small : word < 2 ^ 16) : swapBytes word = 0 ↔ word = 0 := by
  obtain ⟨high, low, highSmall, lowSmall, rfl⟩ := exists_pair small
  rw [swapBytes_pair highSmall lowSmall]
  omega

theorem swapBytes_complement {word : Nat} (small : word < 2 ^ 16) :
    0xFFFF - swapBytes word = swapBytes (0xFFFF - word) := by
  obtain ⟨high, low, highSmall, lowSmall, rfl⟩ := exists_pair small
  have flip : ∀ {first second : Nat}, first < 256 → second < 256 →
      0xFFFF - (first * 256 + second) = (255 - first) * 256 + (255 - second) := by omega
  have swapped : swapBytes ((255 - high) * 256 + (255 - low)) = (255 - low) * 256 + (255 - high) :=
    swapBytes_pair (by omega) (by omega)
  rw [flip highSmall lowSmall, swapped, ← flip lowSmall highSmall,
    swapBytes_pair highSmall lowSmall]

theorem sum_swap_mod {words : List Nat} (small : ∀ word ∈ words, word < 2 ^ 16) :
    (words.map swapBytes).sum % 0xFFFF = words.sum * 256 % 0xFFFF := by
  induction words with
  | nil => rfl
  | cons word words ih =>
      have here := swapBytes_mod (small word List.mem_cons_self)
      have later := ih fun other member => small other (List.mem_cons_of_mem _ member)
      rw [List.map_cons, List.sum_cons, List.sum_cons, Nat.add_mod, here, later, ← Nat.add_mod,
        Nat.add_mul]

theorem sum_swap_eq_zero {words : List Nat} (small : ∀ word ∈ words, word < 2 ^ 16) :
    (words.map swapBytes).sum = 0 ↔ words.sum = 0 := by
  induction words with
  | nil => simp
  | cons word words ih =>
      have here := swapBytes_eq_zero (small word List.mem_cons_self)
      have later := ih fun other member => small other (List.mem_cons_of_mem _ member)
      rw [List.map_cons, List.sum_cons, List.sum_cons, Nat.add_eq_zero_iff, Nat.add_eq_zero_iff,
        here, later]

/-- **Words with their bytes swapped have the swapped sum.** -/
theorem residue_sum_swap {words : List Nat} (small : ∀ word ∈ words, word < 2 ^ 16) :
    residue (words.map swapBytes).sum = swapBytes (residue words.sum) := by
  have bounded := residue_lt words.sum
  refine residue_eq (swapBytes_lt _) ?_ ?_
  · rw [swapBytes_mod bounded, sum_swap_mod small, Nat.mul_mod, residue_mod, ← Nat.mul_mod]
  · rw [swapBytes_eq_zero bounded, residue_eq_zero, sum_swap_eq_zero small]

/-! ## Words of bytes -/

/-- The words of a list of bytes, the high byte first. -/
def wordsBE : List UInt8 → List Nat
  | [] => []
  | [high] => [high.toNat * 256]
  | high :: low :: rest => (high.toNat * 256 + low.toNat) :: wordsBE rest

/-- The words of a list of bytes, the low byte first. -/
def wordsLE (bytes : List UInt8) : List Nat := (wordsBE bytes).map swapBytes

theorem wordsBE_lt (bytes : List UInt8) : ∀ word ∈ wordsBE bytes, word < 2 ^ 16 := by
  fun_induction wordsBE bytes with
  | case1 => simp
  | case2 high =>
      have bounded := high.toNat_lt
      simp only [List.mem_singleton, forall_eq]
      omega
  | case3 high low rest ih =>
      have highBounded := high.toNat_lt
      have lowBounded := low.toNat_lt
      simp only [List.forall_mem_cons]
      exact ⟨by omega, ih⟩

/-- An even number of bytes may be taken first. -/
theorem wordsBE_append {first : List UInt8} (even : first.length % 2 = 0) (second : List UInt8) :
    wordsBE (first ++ second) = wordsBE first ++ wordsBE second := by
  fun_induction wordsBE first with
  | case1 => rfl
  | case2 high => simp at even
  | case3 high low rest ih =>
      rw [List.cons_append, List.cons_append, wordsBE, ih, List.cons_append]
      simp only [List.length_cons] at even
      omega

theorem wordsLE_append {first : List UInt8} (even : first.length % 2 = 0) (second : List UInt8) :
    wordsLE (first ++ second) = wordsLE first ++ wordsLE second := by
  rw [wordsLE, wordsBE_append even, List.map_append, wordsLE, wordsLE]

theorem wordsLE_pair (low high : UInt8) : wordsLE [low, high] = [low.toNat + 256 * high.toNat] := by
  have lowBounded := low.toNat_lt
  have highBounded := high.toNat_lt
  simp only [wordsLE, wordsBE, List.map_cons, List.map_nil, swapBytes, List.cons.injEq, and_true]
  omega

theorem wordsLE_single (low : UInt8) : wordsLE [low] = [low.toNat] := by
  have bounded := low.toNat_lt
  simp only [wordsLE, wordsBE, List.map_cons, List.map_nil, swapBytes, List.cons.injEq, and_true]
  omega

/-- There are half as many words as bytes, rounded up. -/
theorem wordsLE_length (bytes : List UInt8) : (wordsLE bytes).length = (bytes.length + 1) / 2 := by
  rw [wordsLE, List.length_map]
  fun_induction wordsBE bytes with
  | case1 => rfl
  | case2 high => simp
  | case3 high low rest ih =>
      simp only [List.length_cons, ih]
      omega

theorem wordsLE_sum_le (bytes : List UInt8) :
    (wordsLE bytes).sum ≤ (bytes.length + 1) / 2 * 0xFFFF := by
  have bound : ∀ word ∈ wordsLE bytes, word ≤ 0xFFFF := by
    intro word member
    obtain ⟨other, -, rfl⟩ := List.mem_map.mp member
    exact Nat.le_of_lt_succ (swapBytes_lt other)
  rw [← wordsLE_length]
  exact List.sum_le_card_nsmul _ _ bound

/-! ## Internet checksums -/

/-- The bytes of a number, the high byte first. -/
def bigEndian : Nat → Nat → List UInt8
  | 0, _ => []
  | size + 1, value => UInt8.ofNat (value / 256 ^ size) :: bigEndian size value

@[simp]
theorem bigEndian_length (size value : Nat) : (bigEndian size value).length = size := by
  induction size with
  | zero => rfl
  | succ size ih => rw [bigEndian, List.length_cons, ih]

/-- The checksum of a list of bytes: the complement of the one's-complement sum of its words. -/
def internetChecksum (bytes : List UInt8) : Nat := 0xFFFF - onesSum (wordsBE bytes)

theorem onesSum_wordsBE (bytes : List UInt8) :
    onesSum (wordsBE bytes) = residue (wordsBE bytes).sum :=
  onesSum_eq_residue (wordsBE_lt bytes)

theorem wordsBE_bigEndian_two {value : Nat} (small : value < 2 ^ 16) :
    wordsBE (bigEndian 2 value) = [value] := by
  have high : (UInt8.ofNat (value / 256 ^ 1)).toNat = value / 256 ^ 1 % 256 := UInt8.toNat_ofNat'
  have low : (UInt8.ofNat (value / 256 ^ 0)).toNat = value / 256 ^ 0 % 256 := UInt8.toNat_ofNat'
  simp only [bigEndian, wordsBE, high, low, List.cons.injEq, and_true]
  omega

theorem internetChecksum_lt (bytes : List UInt8) : internetChecksum bytes < 2 ^ 16 := by
  unfold internetChecksum
  omega

/-- **A checksum in place verifies.** Where the bytes have a zero word, or a zero byte at their
end, the checksum in its place makes the sum all ones. -/
theorem onesSum_with_checksum {first field second : List UInt8} (even : first.length % 2 = 0)
    (zero : field = [0, 0] ∨ (field = [0] ∧ second = [])) :
    onesSum (wordsBE (first ++ bigEndian 2 (internetChecksum (first ++ field ++ second)) ++ second)) =
      0xFFFF := by
  have small := internetChecksum_lt (first ++ field ++ second)
  have before : (wordsBE (first ++ field ++ second)).sum =
      (wordsBE first).sum + (wordsBE second).sum := by
    rw [List.append_assoc, wordsBE_append even, List.sum_append]
    rcases zero with rfl | ⟨rfl, rfl⟩
    · rw [wordsBE_append rfl, List.sum_append]
      simp [wordsBE]
    · simp [wordsBE]
  have after : (wordsBE (first ++ bigEndian 2 (internetChecksum (first ++ field ++ second)) ++
      second)).sum = (wordsBE first).sum + (wordsBE second).sum +
        internetChecksum (first ++ field ++ second) := by
    rw [List.append_assoc, wordsBE_append even, List.sum_append,
      wordsBE_append (by simp), List.sum_append, wordsBE_bigEndian_two small, List.sum_singleton]
    omega
  rw [onesSum_wordsBE, after, ← before, internetChecksum, onesSum_wordsBE]
  exact residue_add_complement _

end VineyardLoader
