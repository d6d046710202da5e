import Mathlib.Data.Nat.Bitwise
import Mathlib.Tactic.Common
import Mathlib.Tactic.Ring

/-!
# Strings that end in a zero

A string is its bytes before the final zero. It is read through an index, and only the final
zero may be read past the bytes (`CString.at?`), so a function that reads a string shows by
returning that it stays inside.

At an index the string has a rest (`CString.At`): reading is reading the first byte of the rest,
and going on by one is going to the rest of the rest.
-/

set_option autoImplicit false

namespace VineyardLoader

/-- A string in memory: its bytes, with a zero after them. -/
structure CString where
  bytes : List UInt8
  nonzero : ∀ byte ∈ bytes, byte ≠ 0
  small : bytes.length < 2 ^ 64

theorem nonzero_of_all {bytes : List UInt8} (all : bytes.all (· != 0) = true) :
    ∀ byte ∈ bytes, byte ≠ 0 :=
  fun byte member => bne_iff_ne.mp (List.all_eq_true.mp all byte member)

/-- A string of bytes that are no zeros, and not too many. -/
def CString.ofBytes (bytes : List UInt8)
    (valid : (bytes.all (· != 0) && decide (bytes.length < 2 ^ 64)) = true) : CString where
  bytes := bytes
  nonzero := nonzero_of_all (Bool.and_eq_true_iff.mp valid).1
  small := of_decide_eq_true (Bool.and_eq_true_iff.mp valid).2

/-- The byte at an index. Past the final zero nothing may be read. -/
def CString.at? (str : CString) (index : Nat) : Option UInt8 :=
  if index ≤ str.bytes.length then some (str.bytes.getD index 0) else none

/-- `strncmp` on the strings from two indices on. -/
def strncmp (s1 : CString) (index1 : Nat) (s2 : CString) (index2 : Nat) : Nat → Option Int
  | 0 => some 0
  | n + 1 => do
      let u1 ← s1.at? index1
      let u2 ← s2.at? index2
      if u1 ≠ u2 then return (u1.toNat : Int) - u2.toNat
      else if u1 = 0 then return 0
      else strncmp s1 (index1 + 1) s2 (index2 + 1) n

/-- The string from an index on. -/
structure CString.At (str : CString) (index : Nat) (rest : List UInt8) : Prop where
  inside : index + rest.length = str.bytes.length
  drop : str.bytes.drop index = rest

namespace CString.At

variable {str : CString} {index : Nat} {rest : List UInt8}

theorem zero (str : CString) : str.At 0 str.bytes := ⟨Nat.zero_add _, rfl⟩

/-- Every index up to the final zero has a rest. -/
theorem of_le (inside : index ≤ str.bytes.length) : str.At index (str.bytes.drop index) where
  inside := by
    rw [List.length_drop]
    omega
  drop := rfl

theorem le (here : str.At index rest) : index ≤ str.bytes.length := by
  have inside := here.inside
  omega

/-- The byte at the index is the first of the rest, or the final zero. -/
theorem read (here : str.At index rest) : str.at? index = some (rest.headD 0) := by
  rw [CString.at?, if_pos here.le, ← here.drop]
  congr 1
  cases rest with
  | nil =>
      have ended : str.bytes.length ≤ index := by
        have inside := here.inside
        simp only [List.length_nil] at inside
        omega
      rw [List.drop_eq_nil_of_le ended]
      simp [ended]
  | cons byte rest =>
      have found : str.bytes[index]? = some byte := by
        rw [← List.head?_drop, here.drop]
        rfl
      rw [here.drop]
      simp [List.getD, found]

theorem next {byte : UInt8} (here : str.At index (byte :: rest)) : str.At (index + 1) rest where
  inside := by
    have inside := here.inside
    simp only [List.length_cons] at inside
    omega
  drop := by
    rw [← List.tail_drop, here.drop]
    rfl

theorem advance {count : Nat} (here : str.At index rest) (bound : count ≤ rest.length) :
    str.At (index + count) (rest.drop count) where
  inside := by
    have inside := here.inside
    rw [List.length_drop]
    omega
  drop := by rw [← List.drop_drop, here.drop]

theorem mem {byte : UInt8} (here : str.At index rest) (member : byte ∈ rest) : byte ∈ str.bytes := by
  rw [← here.drop] at member
  exact List.mem_of_mem_drop member

theorem head_ne_zero {byte : UInt8} (here : str.At index (byte :: rest)) : byte ≠ 0 :=
  str.nonzero byte (here.mem List.mem_cons_self)

end CString.At

/-- **`strncmp` stays inside its strings**: compared with all bytes of the second string, it is
zero exactly where the first starts with them. -/
theorem strncmp_eq {s1 s2 : CString} {others : List UInt8} :
    ∀ {index1 index2 : Nat} {rest : List UInt8}, s1.At index1 rest → s2.At index2 others →
      ∃ result, strncmp s1 index1 s2 index2 others.length = some result ∧
        (result = 0 ↔ others.isPrefixOf rest = true) := by
  induction others with
  | nil =>
      intro index1 index2 rest first second
      exact ⟨0, rfl, by simp⟩
  | cons other others ih =>
      intro index1 index2 rest first second
      have nonzero := second.head_ne_zero
      rw [List.length_cons, strncmp, first.read, second.read]
      cases rest with
      | nil =>
          refine ⟨0 - other.toNat, ?_, ?_⟩
          · simp [Ne.symm nonzero]
          · have positive : 0 < other.toNat := by
              rw [Nat.pos_iff_ne_zero]
              intro zero
              exact nonzero (UInt8.toNat_inj.mp zero)
            simp only [List.isPrefixOf, Bool.false_eq_true, iff_false]
            omega
      | cons byte rest =>
          by_cases same : byte = other
          · subst same
            obtain ⟨result, run, zero⟩ := ih first.next second.next
            refine ⟨result, ?_, ?_⟩
            · simpa [nonzero] using run
            · simpa [List.isPrefixOf] using zero
          · refine ⟨byte.toNat - other.toNat, ?_, ?_⟩
            · simp [same]
            · have differ : byte.toNat ≠ other.toNat := fun equal =>
                same (UInt8.toNat_inj.mp equal)
              simp only [List.isPrefixOf, Bool.and_eq_true, beq_iff_eq, Ne.symm same, false_and,
                iff_false]
              omega

end VineyardLoader
