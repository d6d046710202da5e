import Mathlib.Data.List.TakeDrop

/-!
# A list in chunks of one size

A list is cut into chunks of one size, of which the last may be shorter. There are as many
chunks as multiples of the size before the end (`lt_chunkCount_iff`), and the elements of a
chunk are those of the list from the multiple on (`chunk_getElem?`).
-/

set_option autoImplicit false

namespace VineyardLoader

section Chunks

variable {α : Type} (items : List α) (size : Nat)

/-- The chunk with the given number. -/
def chunk (index : Nat) : List α := (items.drop (index * size)).take size

/-- How many chunks there are: the length over the size, rounded up. -/
def chunkCount : Nat := (items.length + size - 1) / size

theorem chunk_length (index : Nat) :
    (chunk items size index).length = min size (items.length - index * size) := by
  simp [chunk]

variable {items size}

/-- A number is that of a chunk if the chunk starts before the end. -/
theorem lt_chunkCount_iff (positive : 0 < size) {index : Nat} :
    index < chunkCount items size ↔ index * size < items.length := by
  simp only [chunkCount]
  rw [Nat.lt_iff_add_one_le, Nat.le_div_iff_mul_le positive, Nat.add_one_mul]
  omega

theorem chunk_getElem? {index offset : Nat} (inside : offset < size) :
    (chunk items size index)[offset]? = items[index * size + offset]? := by
  rw [chunk, List.getElem?_take_of_lt inside, List.getElem?_drop]

end Chunks

end VineyardLoader
