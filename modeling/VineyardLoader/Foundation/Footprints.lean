import Mathlib.Tactic.Common
import VineyardLoader.Foundation.Memory

/-!
# Footprints of writes

A memory is kept together with the ranges that were written. A step changes a region if it
leaves the bytes outside of the region as they were and every range it wrote lies in the region
(`Changes`). Steps one after the other change what each of them changes (`Changes.trans`), and a
step that changes a region changes every larger one (`Changes.mono`).

An object is filled byte by byte: a byte that was assigned is what it was assigned, unless a
later assignment goes to the same byte (`assign_self`, `assign_of_ne`).
-/

set_option autoImplicit false

namespace VineyardLoader

/-- An offset below the size is inside. -/
theorem Extent.contains_add {start size index : Nat} (inside : index < size) :
    (⟨start, size⟩ : Extent).Contains (start + index) :=
  ⟨Nat.le_add_right start index, Nat.add_lt_add_left inside start⟩

/-- A memory and the ranges that were written, the latest first. -/
structure TracedMemory where
  mem : Memory
  writes : List Extent

namespace TracedMemory

/-- Write `size` bytes from `start`. -/
def put (state : TracedMemory) (start size : Nat) (source : Nat → UInt8) : TracedMemory :=
  ⟨state.mem.overwrite start size source, ⟨start, size⟩ :: state.writes⟩

/-- Write one byte. -/
def assign (state : TracedMemory) (address : Nat) (value : UInt8) : TracedMemory :=
  state.put address 1 fun _ => value

/-- Everything that was written lies in the region. -/
def Within (state : TracedMemory) (region : Nat → Prop) : Prop :=
  ∀ extent ∈ state.writes, ∀ address, extent.Contains address → region address

section Put

variable (state : TracedMemory) {start size address other : Nat} {source : Nat → UInt8}
  {value : UInt8}

theorem put_offset {index : Nat} (inside : index < size) :
    (state.put start size source).mem (start + index) = source index :=
  state.mem.overwrite_offset inside

theorem put_outside (outside : address < start ∨ start + size ≤ address) :
    (state.put start size source).mem address = state.mem address :=
  state.mem.overwrite_outside outside

theorem assign_self : (state.assign address value).mem address = value :=
  state.put_offset Nat.one_pos

theorem assign_of_ne (different : other ≠ address) :
    (state.assign address value).mem other = state.mem other :=
  state.put_outside (by omega)

end Put

/-! ## What a step changes -/

/-- A step changes no more than a region. -/
structure Changes (region : Nat → Prop) (before after : TracedMemory) : Prop where
  outside : ∀ address, ¬ region address → after.mem address = before.mem address
  kept : ∀ extent ∈ before.writes, extent ∈ after.writes
  added : ∀ extent ∈ after.writes, extent ∈ before.writes ∨
    ∀ address, extent.Contains address → region address

section Changes

variable {region larger : Nat → Prop} {before middle after : TracedMemory}

theorem Changes.refl (state : TracedMemory) : Changes region state state :=
  ⟨fun _ _ => rfl, fun _ member => member, fun _ member => .inl member⟩

theorem Changes.trans (first : Changes region before middle)
    (second : Changes region middle after) : Changes region before after where
  outside address apart := (second.outside address apart).trans (first.outside address apart)
  kept extent member := second.kept extent (first.kept extent member)
  added extent member := (second.added extent member).elim (first.added extent) .inr

theorem Changes.mono (changes : Changes region before after)
    (wider : ∀ address, region address → larger address) : Changes larger before after where
  outside address apart := changes.outside address fun inside => apart (wider address inside)
  kept := changes.kept
  added extent member := (changes.added extent member).imp_right fun inside address contains =>
    wider address (inside address contains)

/-- A write in the region may follow. -/
theorem Changes.put (changes : Changes region before after) {start size : Nat}
    {source : Nat → UInt8}
    (inside : ∀ address, (⟨start, size⟩ : Extent).Contains address → region address) :
    Changes region before (after.put start size source) where
  outside address apart := by
    have missed : address < start ∨ start + size ≤ address := by
      by_contra within
      exact apart (inside address ⟨show start ≤ address by omega,
        show address < start + size by omega⟩)
    rw [after.put_outside missed, changes.outside address apart]
  kept extent member := List.mem_cons_of_mem _ (changes.kept extent member)
  added extent member := by
    rcases List.mem_cons.mp member with rfl | earlier
    · exact .inr inside
    · exact changes.added extent earlier

theorem Changes.assign (changes : Changes region before after) {address : Nat} {value : UInt8}
    (inside : region address) : Changes region before (after.assign address value) :=
  changes.put fun other contains => by
    have same : other = address := by
      obtain ⟨lower, upper⟩ := contains
      exact Nat.le_antisymm (Nat.le_of_lt_succ upper) lower
    rwa [same]

/-- A step that wrote in a region, from a state that did, ends in a state that did. -/
theorem Changes.within (changes : Changes region before after) (so : before.Within region) :
    after.Within region := fun extent member =>
  (changes.added extent member).elim (so extent) id

/-- Bytes outside of the region stay. -/
theorem Changes.bytes_eq (changes : Changes region before after) {start size : Nat}
    (apart : ∀ index < size, ¬ region (start + index)) :
    after.mem.bytes start size = before.mem.bytes start size :=
  Memory.bytes_congr fun index inside => changes.outside _ (apart index inside)

end Changes

end TracedMemory

end VineyardLoader
