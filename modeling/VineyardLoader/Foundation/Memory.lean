import Mathlib.Data.Nat.Bitwise
import Mathlib.Tactic.Common
import Mathlib.Tactic.Ring

/-!
# Byte-addressed memory

A memory gives a byte to every address. Every write is one operation, `overwrite`: the
bytes of a source replace the bytes of a range, and nothing else changes. Storing a
number in little-endian order (`storeLE`) and filling a range with one byte (`fill`) are
the two sources that occur.

A load sees only the range it reads (`loadLE_congr`), so a load whose range a write misses
keeps its value (`loadLE_overwrite_of_disjoint`), and a load of exactly the range of a
store returns the number stored (`loadLE_storeLE`). A store of what a load returned changes
nothing (`storeLE_loadLE`). The bytes of a range are also taken as a list (`bytes`), which a
range next to it extends (`bytes_add`).
-/

set_option autoImplicit false

namespace VineyardLoader

/-- A memory: the byte at every address. -/
abbrev Memory := Nat → UInt8

/-- A range of addresses, from `start` for `size` bytes. -/
structure Extent where
  start : Nat
  size : Nat
deriving Repr, DecidableEq

namespace Extent

/-- The address lies in the range. -/
def Contains (extent : Extent) (address : Nat) : Prop :=
  extent.start ≤ address ∧ address < extent.start + extent.size

instance (extent : Extent) (address : Nat) : Decidable (extent.Contains address) :=
  inferInstanceAs (Decidable (_ ∧ _))

/-- No address lies in both ranges. -/
def Disjoint (first second : Extent) : Prop :=
  ∀ address, first.Contains address → ¬ second.Contains address

theorem Disjoint.symm {first second : Extent} (apart : first.Disjoint second) :
    second.Disjoint first :=
  fun address inSecond inFirst => apart address inFirst inSecond

theorem disjoint_of_le {first second : Extent}
    (apart : first.start + first.size ≤ second.start ∨
      second.start + second.size ≤ first.start) : first.Disjoint second := by
  intro address inFirst inSecond
  unfold Contains at inFirst inSecond
  omega

end Extent

namespace Memory

/-- Replace `size` bytes from `start` by the bytes of the source. -/
def overwrite (memory : Memory) (start size : Nat) (source : Nat → UInt8) : Memory :=
  fun address =>
    if start ≤ address ∧ address < start + size then source (address - start)
    else memory address

/-- Store `size` bytes of a number, the low byte first. -/
def storeLE (memory : Memory) (start size value : Nat) : Memory :=
  memory.overwrite start size fun index => UInt8.ofNat (value / 256 ^ index)

/-- Set `size` bytes from `start` to one byte. -/
def fill (memory : Memory) (start size : Nat) (byte : UInt8) : Memory :=
  memory.overwrite start size fun _ => byte

/-- Load `size` bytes as a number, the low byte first. -/
def loadLE (memory : Memory) (start : Nat) : Nat → Nat
  | 0 => 0
  | size + 1 => (memory start).toNat + 256 * loadLE memory (start + 1) size

/-- The 64-bit load at an address. -/
def load64 (memory : Memory) (address : Nat) : Nat := memory.loadLE address 8

/-- The 64-bit store at an address. -/
def store64 (memory : Memory) (address value : Nat) : Memory := memory.storeLE address 8 value

section Overwrite

variable (memory : Memory) {start size : Nat} {source : Nat → UInt8}

theorem overwrite_inside {address : Nat} (lower : start ≤ address)
    (upper : address < start + size) :
    memory.overwrite start size source address = source (address - start) :=
  if_pos ⟨lower, upper⟩

theorem overwrite_offset {index : Nat} (inside : index < size) :
    memory.overwrite start size source (start + index) = source index := by
  rw [overwrite_inside memory (by omega) (by omega), Nat.add_sub_cancel_left]

theorem overwrite_outside {address : Nat}
    (outside : address < start ∨ start + size ≤ address) :
    memory.overwrite start size source address = memory address :=
  if_neg (by omega)

/-- The last of two writes to one range decides. -/
theorem overwrite_overwrite {other : Nat → UInt8} :
    (memory.overwrite start size source).overwrite start size other =
      memory.overwrite start size other := by
  funext address
  by_cases inside : start ≤ address ∧ address < start + size
  · rw [overwrite_inside _ inside.1 inside.2, overwrite_inside _ inside.1 inside.2]
  · have outside : address < start ∨ start + size ≤ address := by omega
    rw [overwrite_outside _ outside, overwrite_outside _ outside, overwrite_outside _ outside]

theorem fill_inside {address : Nat} {byte : UInt8} (lower : start ≤ address)
    (upper : address < start + size) : memory.fill start size byte address = byte :=
  memory.overwrite_inside lower upper

theorem fill_outside {address : Nat} {byte : UInt8}
    (outside : address < start ∨ start + size ≤ address) :
    memory.fill start size byte address = memory address :=
  memory.overwrite_outside outside

theorem store64_outside {address value : Nat}
    (outside : address < start ∨ start + 8 ≤ address) :
    memory.store64 start value address = memory address := by
  rw [store64, storeLE, memory.overwrite_outside outside]

end Overwrite

/-! ## Loads -/

/-- A load sees only the bytes it reads. -/
theorem loadLE_congr {first second : Memory} {size : Nat} :
    ∀ {start : Nat}, (∀ index, index < size → first (start + index) = second (start + index)) →
      first.loadLE start size = second.loadLE start size := by
  induction size with
  | zero => intro _ _; rfl
  | succ size ih =>
      intro start agree
      have head : first start = second start := agree 0 (by omega)
      have tail : first.loadLE (start + 1) size = second.loadLE (start + 1) size := by
        apply ih
        intro index bound
        have shifted := agree (index + 1) (by omega)
        rwa [Nat.add_assoc, Nat.add_comm 1 index]
      rw [loadLE, loadLE, head, tail]

theorem loadLE_lt (memory : Memory) (size : Nat) :
    ∀ start, memory.loadLE start size < 256 ^ size := by
  induction size with
  | zero => intro start; simp [loadLE]
  | succ size ih =>
      intro start
      have head : (memory start).toNat < 256 := UInt8.toNat_lt _
      have tail := ih (start + 1)
      rw [loadLE, Nat.pow_succ]
      omega

theorem load64_lt (memory : Memory) (address : Nat) : memory.load64 address < 2 ^ 64 :=
  memory.loadLE_lt 8 address

/-- A load that a write misses keeps its value. -/
theorem loadLE_overwrite_of_disjoint (memory : Memory) {start size place width : Nat}
    {source : Nat → UInt8} (apart : place + width ≤ start ∨ start + size ≤ place) :
    (memory.overwrite start size source).loadLE place width = memory.loadLE place width :=
  loadLE_congr fun _ _ => memory.overwrite_outside (by omega)

/-- A load of the range just written reads the source. -/
theorem loadLE_overwrite (memory : Memory) (size : Nat) (source : Nat → UInt8) (start : Nat) :
    (memory.overwrite start size source).loadLE start size = loadLE source 0 size := by
  have shift : ∀ (width base offset : Nat), offset + width ≤ size →
      (memory.overwrite base size source).loadLE (base + offset) width =
        loadLE source offset width := by
    intro width
    induction width with
    | zero => intro _ _ _; rfl
    | succ width ih =>
        intro base offset fits
        rw [loadLE, loadLE, memory.overwrite_offset (by omega), Nat.add_assoc,
          ih base (offset + 1) (by omega)]
  simpa using shift size start 0 (by omega)

/-- The bytes of a number, loaded, give the number back up to the width. -/
theorem loadLE_digits (size : Nat) : ∀ (value offset : Nat),
    loadLE (fun index => UInt8.ofNat (value / 256 ^ index)) offset size =
      value / 256 ^ offset % 256 ^ size := by
  induction size with
  | zero => intro value offset; simp [loadLE, Nat.mod_one]
  | succ size ih =>
      intro value offset
      have next : value / 256 ^ (offset + 1) = value / 256 ^ offset / 256 := by
        rw [Nat.pow_succ, Nat.div_div_eq_div_mul]
      have byte : (UInt8.ofNat (value / 256 ^ offset)).toNat = value / 256 ^ offset % 256 :=
        UInt8.toNat_ofNat'
      rw [loadLE, ih, next, byte, Nat.pow_succ 256 size, Nat.mul_comm (256 ^ size) 256,
        Nat.mod_mul]

/-- **A load of the range of a store returns the number stored.** -/
theorem loadLE_storeLE (memory : Memory) (start size value : Nat) :
    (memory.storeLE start size value).loadLE start size = value % 256 ^ size := by
  rw [storeLE, loadLE_overwrite, loadLE_digits]
  simp

theorem load64_store64 (memory : Memory) (address : Nat) {value : Nat} (fits : value < 2 ^ 64) :
    (memory.store64 address value).load64 address = value := by
  rw [load64, store64, loadLE_storeLE]
  exact Nat.mod_eq_of_lt fits

theorem load64_store64_of_disjoint (memory : Memory) {address other value : Nat}
    (apart : other + 8 ≤ address ∨ address + 8 ≤ other) :
    (memory.store64 address value).load64 other = memory.load64 other := by
  rw [load64, store64, storeLE, memory.loadLE_overwrite_of_disjoint apart, load64]

/-- The bytes of a number that was loaded are the bytes of the range. -/
theorem ofNat_loadLE_div (memory : Memory) (index : Nat) :
    ∀ {start size : Nat}, index < size →
      UInt8.ofNat (memory.loadLE start size / 256 ^ index) = memory (start + index) := by
  induction index with
  | zero =>
      intro start size inside
      obtain ⟨rest, rfl⟩ := Nat.exists_eq_succ_of_ne_zero inside.ne'
      rw [Nat.pow_zero, Nat.div_one, loadLE]
      apply UInt8.toNat_inj.mp
      rw [UInt8.toNat_ofNat', Nat.add_mul_mod_self_left]
      exact Nat.mod_eq_of_lt (UInt8.toNat_lt _)
  | succ index ih =>
      intro start size inside
      obtain ⟨rest, rfl⟩ := Nat.exists_eq_succ_of_ne_zero (Nat.ne_zero_of_lt inside)
      have tail := @ih (start + 1) rest (Nat.lt_of_succ_lt_succ inside)
      have small : (memory start).toNat / 256 = 0 := Nat.div_eq_of_lt (UInt8.toNat_lt _)
      rw [loadLE, Nat.pow_succ', ← Nat.div_div_eq_div_mul, Nat.add_mul_div_left _ _ (by decide),
        small, Nat.zero_add, tail, Nat.add_assoc, Nat.add_comm 1]

/-- **A store of what was loaded changes nothing.** -/
theorem storeLE_loadLE (memory : Memory) (start size : Nat) :
    memory.storeLE start size (memory.loadLE start size) = memory := by
  funext address
  by_cases inside : start ≤ address ∧ address < start + size
  · rw [storeLE, memory.overwrite_inside inside.1 inside.2, ofNat_loadLE_div _ _ (by omega),
      Nat.add_sub_cancel' inside.1]
  · exact memory.overwrite_outside (by omega)

/-- The last of two stores to one place decides. -/
theorem store64_store64 (memory : Memory) (address first second : Nat) :
    (memory.store64 address first).store64 address second = memory.store64 address second := by
  simp only [store64, storeLE, overwrite_overwrite]

theorem load64_congr {first second : Memory} {address : Nat}
    (agree : ∀ index, index < 8 → first (address + index) = second (address + index)) :
    first.load64 address = second.load64 address :=
  loadLE_congr agree

/-- Zero bytes load as zero. -/
theorem loadLE_zero {memory : Memory} {size : Nat} :
    ∀ {start : Nat}, (∀ index, index < size → memory (start + index) = 0) →
      memory.loadLE start size = 0 := by
  intro start zero
  have digits := loadLE_digits size 0 0
  simp only [Nat.zero_div, Nat.zero_mod] at digits
  rw [← digits]
  have same : memory.loadLE start size =
      (memory.overwrite start size fun _ => UInt8.ofNat 0).loadLE start size := by
    apply loadLE_congr
    intro index inside
    rw [memory.overwrite_offset inside, zero index inside]
    rfl
  rw [same, loadLE_overwrite]

theorem load64_fill_zero (memory : Memory) {start size address : Nat}
    (lower : start ≤ address) (upper : address + 8 ≤ start + size) :
    (memory.fill start size 0).load64 address = 0 :=
  loadLE_zero fun _ _ => memory.fill_inside (by omega) (by omega)

/-! ## Lists of bytes -/

/-- The bytes of a range, in order. -/
def bytes (memory : Memory) (start size : Nat) : List UInt8 :=
  (List.range size).map fun index => memory (start + index)

@[simp]
theorem bytes_length (memory : Memory) (start size : Nat) :
    (memory.bytes start size).length = size := by
  simp [bytes]

/-- A range is its first part and the rest. -/
theorem bytes_add (memory : Memory) (start first second : Nat) :
    memory.bytes start (first + second) =
      memory.bytes start first ++ memory.bytes (start + first) second := by
  simp [bytes, List.range_add, Function.comp_def, Nat.add_assoc]

theorem bytes_congr {first second : Memory} {start other size : Nat}
    (agree : ∀ index, index < size → first (start + index) = second (other + index)) :
    first.bytes start size = second.bytes other size :=
  List.map_congr_left fun index member => agree index (List.mem_range.mp member)

/-- Ranges with the same bytes agree at every place. -/
theorem eq_of_bytes_eq {first second : Memory} {start other size index : Nat}
    (same : first.bytes start size = second.bytes other size) (inside : index < size) :
    first (start + index) = second (other + index) := by
  have here := congrArg (fun list => list[index]?) same
  simpa [bytes, inside] using here

/-- The number in a range depends on its bytes alone. -/
theorem loadLE_of_bytes_eq {first second : Memory} {start other size : Nat}
    (same : first.bytes start size = second.bytes other size) :
    first.loadLE start size = second.loadLE other size := by
  induction size generalizing start other with
  | zero => rfl
  | succ size ih =>
      have byte : first start = second other := eq_of_bytes_eq same (Nat.succ_pos size)
      have rest : first.bytes (start + 1) size = second.bytes (other + 1) size := by
        apply bytes_congr
        intro index inside
        have next := eq_of_bytes_eq same (show index + 1 < size + 1 from Nat.succ_lt_succ inside)
        rwa [Nat.add_comm index 1, ← Nat.add_assoc, ← Nat.add_assoc] at next
      rw [loadLE, loadLE, byte, ih rest]

theorem bytes_overwrite (memory : Memory) (start size : Nat) (source : Nat → UInt8) :
    (memory.overwrite start size source).bytes start size = bytes source 0 size :=
  bytes_congr fun index inside => by rw [memory.overwrite_offset inside, Nat.zero_add]

theorem bytes_overwrite_of_disjoint (memory : Memory) {start size place width : Nat}
    {source : Nat → UInt8} (apart : place + width ≤ start ∨ start + size ≤ place) :
    (memory.overwrite start size source).bytes place width = memory.bytes place width :=
  bytes_congr fun _ _ => memory.overwrite_outside (by omega)

theorem loadLE_two (memory : Memory) (start : Nat) :
    memory.loadLE start 2 = (memory start).toNat + 256 * (memory (start + 1)).toNat := rfl

theorem bytes_two (memory : Memory) (start : Nat) :
    memory.bytes start 2 = [memory start, memory (start + 1)] := rfl

end Memory

/-- The bytes of a list, as a memory. -/
theorem bytes_getD (bytes : List UInt8) :
    Memory.bytes (fun index => bytes.getD index 0) 0 bytes.length = bytes := by
  apply List.ext_getElem?
  intro index
  by_cases inside : index < bytes.length
  · simp [Memory.bytes, inside]
  · rw [List.getElem?_eq_none (by simpa using inside), List.getElem?_eq_none (by omega)]

end VineyardLoader
