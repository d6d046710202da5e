import Mathlib.Algebra.Order.Group.Multiset
import VineyardLoader.Foundation.Memory

/-!
# Lists linked through memory

Free blocks of memory can be kept in a list without further memory: the first word of a free block
holds the address of the next one, and a zero ends the list (`Linked`).

The blocks of a fixed set (`BlockSet`) are in the list or out of it, each exactly once
(`FreeList`). Taking the first block out of the list, putting a block that is out back in front of
it, and writing to the rest of a block that is out, keep the account.
-/

set_option autoImplicit false

namespace VineyardLoader

/-- The list of blocks that starts at an address. -/
def Linked (memory : Memory) : Nat → List Nat → Prop
  | head, [] => head = 0
  | head, block :: rest => head = block ∧ block ≠ 0 ∧ Linked memory (memory.load64 block) rest

section Linked

variable {memory other : Memory} {head block : Nat} {blocks : List Nat}

/-- The list only depends on the first words of its blocks. -/
theorem Linked.congr (linked : Linked memory head blocks)
    (same : ∀ block ∈ blocks, other.load64 block = memory.load64 block) :
    Linked other head blocks := by
  induction blocks generalizing head with
  | nil => exact linked
  | cons first rest ih =>
      obtain ⟨rfl, nonzero, linked⟩ := linked
      refine ⟨rfl, nonzero, ?_⟩
      rw [same _ (List.mem_cons_self ..)]
      exact ih linked fun block member => same block (List.mem_cons_of_mem _ member)

/-- A list that does not start with zero has a first block. -/
theorem Linked.first (linked : Linked memory head blocks) (nonzero : head ≠ 0) :
    ∃ rest, blocks = head :: rest ∧ Linked memory (memory.load64 head) rest := by
  cases blocks with
  | nil => exact absurd linked nonzero
  | cons first rest =>
      obtain ⟨rfl, -, linked⟩ := linked
      exact ⟨rest, rfl, linked⟩

/-- The start of a list is zero or one of its blocks. -/
theorem Linked.head_cases (linked : Linked memory head blocks) : head = 0 ∨ head ∈ blocks := by
  cases blocks with
  | nil => exact .inl linked
  | cons first rest => exact .inr (linked.1 ▸ List.mem_cons_self ..)

/-- A write that misses the first words of the blocks leaves the list. -/
theorem Linked.write {start size : Nat} (linked : Linked memory head blocks)
    (same : ∀ address, address < start ∨ start + size ≤ address → other address = memory address)
    (apart : ∀ block ∈ blocks, block + 8 ≤ start ∨ start + size ≤ block) :
    Linked other head blocks := by
  refine linked.congr fun block member => Memory.load64_congr fun index inside => same _ ?_
  have := apart block member
  omega

/-- A block is put in front of a list. -/
theorem Linked.push (linked : Linked memory head blocks) (nonzero : block ≠ 0)
    (fits : head < 2 ^ 64) (apart : ∀ other ∈ blocks, other + 8 ≤ block ∨ block + 8 ≤ other) :
    Linked (memory.store64 block head) block (block :: blocks) := by
  refine ⟨rfl, nonzero, ?_⟩
  rw [Memory.load64_store64 _ _ fits]
  exact linked.write (fun address outside => Memory.store64_outside _ outside) apart

end Linked

/-- Blocks of a size, none of which overlap. -/
structure BlockSet (size : Nat) (all : Multiset Nat) : Prop where
  nodup : all.Nodup
  apart : ∀ first ∈ all, ∀ second ∈ all, first ≠ second →
    first + size ≤ second ∨ second + size ≤ first
  word : 8 ≤ size
  nonzero : ∀ block ∈ all, block ≠ 0
  fits : ∀ block ∈ all, block < 2 ^ 64

/-- The free list at an address has the given number of blocks, and together with the blocks that
are out these are all blocks. -/
def FreeList (memory : Memory) (head count : Nat) (all out : Multiset Nat) : Prop :=
  ∃ free : List Nat, Linked memory head free ∧ free.length = count ∧ ↑free + out = all

section FreeList

variable {memory other : Memory} {head count block size : Nat} {all out : Multiset Nat}

theorem FreeList.count_add_card (list : FreeList memory head count all out) :
    count + Multiset.card out = Multiset.card all := by
  obtain ⟨free, -, rfl, rfl⟩ := list
  rw [Multiset.card_add, Multiset.coe_card]

theorem FreeList.out_le (list : FreeList memory head count all out) : out ≤ all := by
  obtain ⟨free, -, -, rfl⟩ := list
  exact Multiset.le_add_left _ _

/-- A block that is out keeps its distance from the free ones. -/
theorem BlockSet.apart_of_out {free : List Nat} (set : BlockSet size all)
    (account : ↑free + block ::ₘ out = all) :
    ∀ other ∈ free, other + size ≤ block ∨ block + size ≤ other := by
  intro other member
  have inside : block ∈ all := account ▸ Multiset.mem_add.mpr (.inr (Multiset.mem_cons_self ..))
  have otherInside : other ∈ all := account ▸ Multiset.mem_add.mpr (.inl member)
  apply set.apart other otherInside block inside
  rintro rfl
  have distinct := (Multiset.nodup_add.mp (account ▸ set.nodup)).2.2
  exact Multiset.disjoint_left.mp distinct member (Multiset.mem_cons_self ..)

/-- The first free block is taken out. -/
theorem FreeList.pop (set : BlockSet size all) (list : FreeList memory head count all out)
    (nonzero : head ≠ 0) :
    0 < count ∧ FreeList (memory.store64 head 0) (memory.load64 head) (count - 1) all
      (head ::ₘ out) := by
  obtain ⟨free, linked, rfl, account⟩ := list
  obtain ⟨rest, rfl, tail⟩ := linked.first nonzero
  have moved : (rest : Multiset Nat) + head ::ₘ out = all := by
    rw [← account, ← Multiset.cons_coe, Multiset.cons_add, Multiset.add_cons]
  refine ⟨Nat.zero_lt_succ _, rest, ?_, rfl, moved⟩
  refine tail.write (fun address outside => Memory.store64_outside _ outside) fun other member => ?_
  have apart := set.apart_of_out moved other member
  have word := set.word
  omega

/-- The rest of a block that is out may be written. -/
theorem FreeList.write (set : BlockSet size all)
    (list : FreeList memory head count all (block ::ₘ out))
    (same : ∀ address, address < block + 8 ∨ block + size ≤ address →
      other address = memory address) :
    FreeList other head count all (block ::ₘ out) := by
  obtain ⟨free, linked, counted, account⟩ := list
  refine ⟨free, linked.congr fun block' member => Memory.load64_congr fun index inside => same _ ?_,
    counted, account⟩
  have apart := set.apart_of_out account block' member
  have word := set.word
  omega

/-- The list starts at an address of 64 bits. -/
theorem FreeList.head_lt (set : BlockSet size all) (list : FreeList memory head count all out) :
    head < 2 ^ 64 := by
  obtain ⟨free, linked, -, account⟩ := list
  rcases linked.head_cases with rfl | member
  · decide
  · exact set.fits head (account ▸ Multiset.mem_add.mpr (.inl member))

/-- A block that is out is put back. -/
theorem FreeList.push (set : BlockSet size all)
    (list : FreeList memory head count all (block ::ₘ out)) :
    FreeList (memory.store64 block head) block (count + 1) all out := by
  have fits := list.head_lt set
  obtain ⟨free, linked, rfl, account⟩ := list
  have inside : block ∈ all := account ▸ Multiset.mem_add.mpr (.inr (Multiset.mem_cons_self ..))
  refine ⟨block :: free, linked.push (set.nonzero block inside) fits ?_, rfl, ?_⟩
  · intro other member
    have apart := set.apart_of_out account other member
    have word := set.word
    omega
  · rw [← account, ← Multiset.cons_coe, Multiset.cons_add, Multiset.add_cons]

end FreeList

end VineyardLoader
