import VineyardLoader.Net.Netboot

/-!
# Strings and paths

`strlen` finds the end of a string that a memory holds (`strlenLoop_eq`).

`uefi_to_ucs2` goes through a string character by character, as far for each as its first byte
says. It writes one unit for a character, so the units stay within the length of the string if
the characters end where the string ends (`ucs2Loop_isSome`). It does not check that.
-/

set_option autoImplicit false

namespace VineyardLoader

/-- A memory that holds a string and its final zero from a place on. -/
structure HoldsString (memory : Memory) (start : Nat) (str : List UInt8) : Prop where
  bytes : ∀ index (inside : index < str.length), memory (start + index) = str[index]
  ended : memory (start + str.length) = 0
  nonzero : ∀ byte ∈ str, byte ≠ 0

/-- How far `uefi_to_ucs2` goes for a character, from its first byte. -/
def sequenceLength (c0 : UInt8) : Nat :=
  if c0.toNat &&& 0x80 = 0 then 1
  else if c0.toNat &&& 0xE0 = 0xC0 then 2
  else if c0.toNat &&& 0xF0 = 0xE0 then 3
  else 4

/-- The characters of a string end where the string ends, if a number of its bytes still belong
to a character before it. -/
def charactersEnd : List UInt8 → Nat → Bool
  | [], left => left == 0
  | _ :: rest, left + 1 => charactersEnd rest left
  | byte :: rest, 0 => charactersEnd rest (sequenceLength byte - 1)

theorem ucs2Step_next (utf8 : Memory) (utf8i : Nat) :
    (ucs2Step utf8 utf8i).1 = utf8i + sequenceLength (utf8 utf8i) := by
  simp only [ucs2Step, sequenceLength]
  split
  · rfl
  · split
    · rfl
    · split <;> rfl

theorem sequenceLength_pos (c0 : UInt8) : 0 < sequenceLength c0 := by
  unfold sequenceLength
  split
  · decide
  · split
    · decide
    · split <;> decide

theorem HoldsString.tail {memory : Memory} {start : Nat} {byte : UInt8} {rest : List UInt8}
    (holds : HoldsString memory start (byte :: rest)) : HoldsString memory (start + 1) rest where
  bytes index inside := by
    have here := holds.bytes (index + 1) (Nat.succ_lt_succ inside)
    rwa [Nat.add_assoc, Nat.add_comm 1 index]
  ended := by
    have here := holds.ended
    rwa [List.length_cons, ← Nat.add_assoc, Nat.add_right_comm] at here
  nonzero other member := holds.nonzero other (List.mem_cons_of_mem _ member)

theorem HoldsString.head {memory : Memory} {start : Nat} {byte : UInt8} {rest : List UInt8}
    (holds : HoldsString memory start (byte :: rest)) : memory start = byte ∧ memory start ≠ 0 := by
  have here : memory start = byte := holds.bytes 0 (Nat.succ_pos _)
  exact ⟨here, here ▸ holds.nonzero byte List.mem_cons_self⟩

/-- `strlen` finds the end of a string. -/
theorem strlenLoop_eq {memory : Memory} {str : List UInt8} :
    ∀ {fuel start : Nat}, HoldsString memory start str → str.length < fuel →
      strlenLoop memory fuel start = some (start + str.length) := by
  induction str with
  | nil =>
      intro fuel start holds bound
      obtain ⟨fuel, rfl⟩ := Nat.exists_eq_add_of_lt bound
      exact if_pos holds.ended
  | cons byte rest ih =>
      intro fuel start holds bound
      cases fuel with
      | zero => exact absurd bound (Nat.not_lt_zero _)
      | succ fuel =>
          rw [strlenLoop, if_neg holds.head.2, ih holds.tail (Nat.lt_of_succ_lt_succ bound),
            List.length_cons]
          congr 1
          omega

/-- The conversion of a string whose characters end with it stays in its room. -/
theorem ucs2Loop_isSome {memory : Memory} {str : List UInt8} :
    ∀ {room start left : Nat}, HoldsString memory start str → charactersEnd str left = true →
      str.length < room + left → 0 < room → (ucs2Loop memory room (start + left)).isSome := by
  induction str with
  | nil =>
      intro room start left holds ends _ positive
      obtain ⟨room, rfl⟩ := Nat.exists_eq_add_of_lt positive
      obtain rfl : left = 0 := beq_iff_eq.mp ends
      have ended : memory (start + 0) = 0 := holds.ended
      rw [Nat.zero_add, ucs2Loop, if_pos ended]
      rfl
  | cons byte rest ih =>
      intro room start left holds ends bound positive
      cases left with
      | succ left =>
          have shifted := ih holds.tail ends (by simpa [← Nat.add_assoc] using bound) positive
          rwa [Nat.add_assoc, Nat.add_comm 1 left] at shifted
      | zero =>
          obtain ⟨room, rfl⟩ := Nat.exists_eq_succ_of_ne_zero positive.ne'
          have length : rest.length < room := by simpa using bound
          have next := sequenceLength_pos byte
          have shifted : (ucs2Loop memory room (start + 1 + (sequenceLength byte - 1))).isSome :=
            ih holds.tail ends (by omega) (by omega)
          rw [ucs2Loop, Nat.add_zero, if_neg holds.head.2]
          have target : (ucs2Step memory start).1 = start + 1 + (sequenceLength byte - 1) := by
            rw [ucs2Step_next, holds.head.1]
            omega
          simpa [target] using shifted

end VineyardLoader
