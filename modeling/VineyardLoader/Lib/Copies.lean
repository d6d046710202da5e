import VineyardLoader.Net.Selection
import VineyardLoader.Uefi.Heap

/-!
# Copying byte by byte

`memcpy` goes upwards, one byte at a time, and so does `memset`. The model of the loader uses block
operations in their place, which read the whole source before they write. Here the loops themselves
are run, as they are written.

A copy whose destination starts inside its source reads bytes that it has written before, so what
arrives is the beginning of the source over and over (`memcpyLoop_byte`). The pointers are
`restrict`, so a caller must not ask for this. The block operation is right for all other ranges, and
in particular wherever the model copies at all (`memcpy_eq_memcpyLoop`).

A comparison afterwards does not tell the two kinds of overlap apart: it finds no difference after a
copy that went wrong, and finds one after a copy that went well but wrote over its source
(`memcpyLoop_block_iff`).
-/

set_option autoImplicit false

namespace VineyardLoader

/-! ## The loops -/

/-- `*ptr = byte`. -/
def Memory.put (memory : Memory) (place : Nat) (byte : UInt8) : Memory :=
  fun address => if address = place then byte else memory address

/-- The loop of `memcpy`, for the number of bytes that are left. -/
def memcpyLoop (memory : Memory) : Nat → Nat → Nat → Memory
  | 0, _, _ => memory
  | n + 1, dst, src => memcpyLoop (memory.put dst (memory src)) n (dst + 1) (src + 1)

/-- `(unsigned char) c`. -/
def unsignedChar (c : BitVec 32) : UInt8 := ⟨c.setWidth 8⟩

/-- The loop of `memset`, for the number of bytes that are left. -/
def memsetLoop (memory : Memory) (c : BitVec 32) : Nat → Nat → Memory
  | 0, _ => memory
  | n + 1, ptr => memsetLoop (memory.put ptr (unsignedChar c)) c n (ptr + 1)

/-- `memset` fills a range. -/
theorem memsetLoop_eq_fill (memory : Memory) (c : BitVec 32) (n ptr : Nat) :
    memsetLoop memory c n ptr = memory.fill ptr n (unsignedChar c) := by
  induction n generalizing memory ptr with
  | zero =>
      funext address
      rw [memsetLoop, memory.fill_outside (by omega)]
  | succ n ih =>
      funext address
      rw [memsetLoop, ih]
      by_cases first : address = ptr
      · rw [Memory.fill_outside _ (by omega), Memory.put, if_pos first,
          Memory.fill_inside _ (by omega) (by omega)]
      · by_cases inside : ptr ≤ address ∧ address < ptr + (n + 1)
        · rw [Memory.fill_inside _ (by omega) (by omega),
            Memory.fill_inside _ inside.1 inside.2]
        · rw [Memory.fill_outside _ (by omega), Memory.fill_outside _ (by omega), Memory.put,
            if_neg first]

/-! ## What a copy leaves -/

/-- The place in the source of the byte that arrives at an index of the destination. Behind the
distance of the two, the source is read again. -/
def copiedIndex (dst src index : Nat) : Nat := if src < dst then index % (dst - src) else index

section Copies

variable {memory : Memory} {n dst src index : Nat}

theorem copiedIndex_of_not_inside (apart : ¬ (src < dst ∧ dst < src + n)) (inside : index < n) :
    copiedIndex dst src index = index := by
  rw [copiedIndex]
  split
  · exact Nat.mod_eq_of_lt (by omega)
  · rfl

/-- The last byte is copied after all the others. -/
theorem memcpyLoop_last (memory : Memory) (n dst src : Nat) :
    memcpyLoop memory (n + 1) dst src =
      (memcpyLoop memory n dst src).put (dst + n) (memcpyLoop memory n dst src (src + n)) := by
  induction n generalizing memory dst src with
  | zero => rfl
  | succ n ih =>
      rw [memcpyLoop, ih, memcpyLoop, Nat.add_right_comm dst, Nat.add_right_comm src]
      rfl

/-- **Every byte after the loop**, whatever the ranges are. -/
theorem memcpyLoop_byte (memory : Memory) (n dst src address : Nat) :
    memcpyLoop memory n dst src address =
      if dst ≤ address ∧ address < dst + n then
        memory (src + copiedIndex dst src (address - dst))
      else memory address := by
  induction n generalizing address with
  | zero => rw [memcpyLoop, if_neg (by omega)]
  | succ n ih =>
      rw [memcpyLoop_last, Memory.put]
      by_cases last : address = dst + n
      · rw [if_pos last, if_pos (by omega), ih, last, Nat.add_sub_cancel_left]
        by_cases later : src < dst
        · by_cases again : dst ≤ src + n
          -- the byte that is read now was written by the loop
          · have distance : (src + n - dst) % (dst - src) = n % (dst - src) := by
              rw [Nat.mod_eq_sub_mod (show dst - src ≤ n by omega)]
              congr 1
              omega
            rw [if_pos (by omega), copiedIndex, if_pos later, copiedIndex, if_pos later, distance]
          · rw [if_neg (by omega), copiedIndex, if_pos later, Nat.mod_eq_of_lt (by omega)]
        · rw [if_neg (by omega), copiedIndex, if_neg later]
      · rw [if_neg last, ih]
        by_cases inside : dst ≤ address ∧ address < dst + n
        · rw [if_pos inside, if_pos (by omega)]
        · rw [if_neg inside, if_neg (by omega)]

theorem memcpyLoop_inside (inside : index < n) :
    memcpyLoop memory n dst src (dst + index) = memory (src + copiedIndex dst src index) := by
  rw [memcpyLoop_byte, if_pos (by omega), Nat.add_sub_cancel_left]

theorem memcpyLoop_outside {address : Nat} (outside : address < dst ∨ dst + n ≤ address) :
    memcpyLoop memory n dst src address = memory address := by
  rw [memcpyLoop_byte, if_neg (by omega)]

/-- The loop is the block operation, unless the destination starts inside the source. -/
theorem memcpyLoop_eq_overwrite (apart : ¬ (src < dst ∧ dst < src + n)) :
    memcpyLoop memory n dst src = memory.overwrite dst n fun index => memory (src + index) := by
  funext address
  by_cases inside : dst ≤ address ∧ address < dst + n
  · rw [memcpyLoop_byte, if_pos inside, Memory.overwrite_inside _ inside.1 inside.2,
      copiedIndex_of_not_inside apart (by omega)]
  · rw [memcpyLoop_outside (by omega), Memory.overwrite_outside _ (by omega)]

/-- Where `memcpy` is used as a block operation, it is the loop. -/
theorem memcpy_eq_memcpyLoop {object : Extent} {heap final : Heap}
    (run : memcpy object dst src n heap = .ok () final) :
    final.mem = memcpyLoop heap.mem n dst src := by
  obtain ⟨apart, run⟩ := check_eq_ok.mp run
  rw [bind_of_ok (get_run _), writeBytes] at run
  split at run
  · cases run
    exact (memcpyLoop_eq_overwrite (by omega)).symm
  · cases run

/-! ## Comparing afterwards -/

/-- After the loop, both ranges hold the same bytes, unless the source starts inside the
destination. -/
theorem memcpyLoop_agrees (apart : ¬ (dst < src ∧ src < dst + n)) (inside : index < n) :
    memcpyLoop memory n dst src (dst + index) = memcpyLoop memory n dst src (src + index) := by
  rw [memcpyLoop_inside inside, memcpyLoop_byte]
  by_cases written : dst ≤ src + index
  · rcases Nat.lt_trichotomy src dst with later | same | before
    · have again : (src + index - dst) % (dst - src) = index % (dst - src) := by
        rw [Nat.mod_eq_sub_mod (show dst - src ≤ index by omega)]
        congr 1
        omega
      rw [if_pos (by omega), copiedIndex, if_pos later, copiedIndex, if_pos later, again]
    · subst same
      rw [if_pos (by omega), Nat.add_sub_cancel_left]
    · rw [if_neg (by omega), copiedIndex, if_neg (by omega)]
  · rw [if_neg (by omega), copiedIndex, if_pos (by omega), Nat.mod_eq_of_lt (by omega)]

/-- A memory with one byte that is set. -/
def oneByteSet (place : Nat) : Memory := Memory.put (fun _ => 0) place 1

theorem oneByteSet_ne {place other : Nat} (differ : other ≠ place) :
    oneByteSet place place ≠ oneByteSet place other := by
  simp [oneByteSet, Memory.put, differ]

/-- **When the loop is a block operation, and when a comparison is passed.** The first fails for some
memory exactly if the destination starts inside the source, the second exactly if the source starts
inside the destination. -/
theorem memcpyLoop_block_iff (n dst src : Nat) :
    ((∀ memory : Memory, memcpyLoop memory n dst src =
        memory.overwrite dst n fun index => memory (src + index)) ↔
      ¬ (src < dst ∧ dst < src + n)) ∧
    ((∀ memory : Memory, memcmp (fun index => memcpyLoop memory n dst src (dst + index))
        (fun index => memcpyLoop memory n dst src (src + index)) n = 0) ↔
      ¬ (dst < src ∧ src < dst + n)) := by
  refine ⟨⟨?_, fun apart memory => memcpyLoop_eq_overwrite apart⟩, ⟨?_, fun apart memory =>
    memcmp_eq_zero_iff.mpr fun index inside => memcpyLoop_agrees apart inside⟩⟩
  · rintro block ⟨later, inside⟩
    -- the first byte arrives a second time at the distance of the ranges
    have copied : dst - src < n := by omega
    have byte := congrFun (block (oneByteSet src)) (dst + (dst - src))
    rw [memcpyLoop_inside copied, Memory.overwrite_offset _ copied, copiedIndex, if_pos later,
      Nat.mod_self] at byte
    exact oneByteSet_ne (by omega) byte
  · rintro passed ⟨later, inside⟩
    -- the first byte of the source is written over by a later one, or is the byte of another place
    have bytes := memcmp_eq_zero_iff.mp (passed (oneByteSet src)) 0 (by omega)
    have first : memcpyLoop (oneByteSet src) n dst src (dst + 0) = oneByteSet src src := by
      rw [memcpyLoop_inside (by omega), copiedIndex, if_neg (by omega)]
      rfl
    have second : memcpyLoop (oneByteSet src) n dst src (src + 0) =
        oneByteSet src (src + (src - dst)) := by
      rw [memcpyLoop_byte, if_pos (by omega), copiedIndex, if_neg (by omega)]
      rfl
    rw [first, second] at bytes
    exact oneByteSet_ne (by omega) bytes

end Copies

end VineyardLoader
