import VineyardLoader.Net.Pool

/-!
# The buffer of a pointer

`net_bufpool_return` finds the buffer of a pointer with a mask of the type `unsigned long`. How
far the mask reaches depends on the width of the type (`mask_recovers_iff`). On the target of the
build it has 32 bits, so the buffer is put back exactly when it lies below 4 GiB
(`netBufpoolReturn_recovers_iff`). A buffer above is lost, and the list goes on at its address
without the upper bits.

`AllocatePages` may answer pages above 4 GiB. The pool is complete after `net_bufpool_init` exactly
when it lies below (`netBufpoolInit_balanced_iff`).
-/

set_option autoImplicit false

namespace VineyardLoader

section Recovery

variable {base index pointer : Nat}

/-! ## The mask -/

/-- Where `unsigned long` has some bits above eleven, `~2047UL` takes a pointer back to its buffer
exactly when the buffer lies below the end of the type. -/
theorem mask_recovers_iff (width : Nat) (aligned : base % 4096 = 0)
    (lower : base + 2048 * index ≤ pointer) (upper : pointer < base + 2048 * (index + 1)) :
    pointer &&& (~~~BitVec.ofNat (11 + width) 2047).toNat = base + 2048 * index ↔
      base + 2048 * index < 2 ^ (11 + width) := by
  obtain ⟨offset, rfl⟩ := Nat.exists_eq_add_of_le lower
  have block : (base + 2048 * index) % 2 ^ 11 = 0 := by omega
  have mask : (~~~BitVec.ofNat (11 + width) 2047).toNat = fieldMask 11 width :=
    toNat_not_lowMask 11 width
  rw [mask]
  exact add_and_fieldMask_iff width block (by omega)

/-- The mask of the target. -/
theorem and_mask_eq_iff (aligned : base % 4096 = 0) (lower : base + 2048 * index ≤ pointer)
    (upper : pointer < base + 2048 * (index + 1)) :
    pointer &&& 0xFFFFF800 = base + 2048 * index ↔ base + 2048 * index < 2 ^ 32 :=
  mask_recovers_iff 21 aligned lower upper

/-! ## Giving back -/

/-- A buffer is put on the free list: it is the first block, the list goes on as before, and only
the first word of the buffer is written. -/
structure PutBack (base buffer : Nat) (out : Multiset Nat) (s t : NetState) : Prop where
  head : t.ethBufpool = buffer
  next : t.mem.load64 buffer = s.ethBufpool
  list : FreeList t.mem t.ethBufpool t.ethBufpoolAvail (buffers base) out
  rest : ∀ address, address < buffer ∨ buffer + 8 ≤ address → t.mem address = s.mem address

theorem netBufpoolReturn_run (data : Nat) (s : NetState) :
    netBufpoolReturn data s = .ok () (s.returned data) := rfl

/-- A buffer that is found is put on the free list. -/
theorem NetState.returned_putBack {s : NetState} {buffer data : Nat} {out : Multiset Nat}
    (set : BlockSet 2048 (buffers base))
    (list : FreeList s.mem s.ethBufpool s.ethBufpoolAvail (buffers base) (buffer ::ₘ out))
    (mask : data &&& 0xFFFFF800 = buffer) : PutBack base buffer out s (s.returned data) := by
  have avail : (s.ethBufpoolAvail + 1) % 2 ^ 32 = s.ethBufpoolAvail + 1 := by
    have count := list.count_add_card
    have all : Multiset.card (buffers base) = 4 := rfl
    omega
  have pushed := list.push set
  have start : s.ethBufpool < 2 ^ 64 := list.head_lt set
  subst mask
  exact
    { head := rfl
      next := Memory.load64_store64 _ _ start
      list := by
        rw [NetState.returned, avail]
        exact pushed
      rest := fun address outside => Memory.store64_outside _ outside }

/-! ## Taking and giving back -/

theorem netBufpoolGet_eq_some {s t : NetState} {size data : Nat}
    (run : netBufpoolGet size s = .ok (some data) t) :
    data = s.ethBufpool + 8 ∧ t = s.popped := by
  rw [netBufpoolGet, bind_of_ok (get_run _)] at run
  split at run
  · cases run
  · split at run
    · cases run
    · cases run
      exact ⟨rfl, rfl⟩

/-- A buffer that is taken and found again is back as it was. -/
theorem NetState.popped_returned {s : NetState} {data : Nat} (avail : s.ethBufpoolAvail < 2 ^ 32)
    (mask : data &&& 0xFFFFF800 = s.ethBufpool) : s.popped.returned data = s := by
  have count : ((s.ethBufpoolAvail + 2 ^ 32 - 1) % 2 ^ 32 + 1) % 2 ^ 32 = s.ethBufpoolAvail := by
    omega
  have mem : (s.mem.store64 s.ethBufpool 0).store64 s.ethBufpool (s.mem.load64 s.ethBufpool) =
      s.mem := by
    rw [Memory.store64_store64]
    exact s.mem.storeLE_loadLE s.ethBufpool 8
  simp only [NetState.returned, NetState.popped, mask, count, mem]

/-- **A pointer leads back to its buffer exactly when the buffer lies below 4 GiB.** For every
pool and every pointer into one of its buffers, this is when `net_bufpool_return` puts the buffer
on the free list, and when it undoes the `net_bufpool_get` that took the buffer. -/
theorem netBufpoolReturn_recovers_iff (nonzero : base ≠ 0) (aligned : base % 4096 = 0)
    (lower : base + 2048 * index ≤ pointer) (upper : pointer < base + 2048 * (index + 1)) :
    (∀ (s : NetState) (out : Multiset Nat),
      FreeList s.mem s.ethBufpool s.ethBufpoolAvail (buffers base)
        ((base + 2048 * index) ::ₘ out) →
      ((∃ t, netBufpoolReturn pointer s = .ok () t ∧
          PutBack base (base + 2048 * index) out s t) ↔ base + 2048 * index < 2 ^ 32)) ∧
    ∀ (s t : NetState) (size : Nat), s.ethBufpoolAvail < 2 ^ 32 →
      netBufpoolGet size s = .ok (some (base + 2048 * index + 8)) t →
      (netBufpoolReturn pointer t = .ok () s ↔ base + 2048 * index < 2 ^ 32) := by
  have mask := and_mask_eq_iff aligned lower upper
  constructor
  · intro s out list
    constructor
    · rintro ⟨t, run, back⟩
      cases run
      exact mask.mp back.head
    · intro below
      have room : base + 0x2000 ≤ 2 ^ 64 := by omega
      exact ⟨_, netBufpoolReturn_run pointer s,
        NetState.returned_putBack (buffers_blockSet nonzero room) list (mask.mpr below)⟩
  · intro s t size avail taken
    obtain ⟨buffer, rfl⟩ := netBufpoolGet_eq_some taken
    have start : s.ethBufpool = base + 2048 * index := (Nat.add_right_cancel buffer).symm
    rw [netBufpoolReturn_run]
    constructor
    · intro same
      rw [EStateM.Result.ok.injEq] at same
      have head : (s.popped.returned pointer).ethBufpool = s.ethBufpool :=
        congrArg NetState.ethBufpool same.2
      exact mask.mp (head.trans start)
    · intro below
      rw [NetState.popped_returned avail ((mask.mpr below).trans start.symm)]

/-- A state with one free buffer. -/
def oneFree (buffer : Nat) : NetState :=
  { sampleNetState with ethBufpool := buffer, ethBufpoolAvail := 1 }

/-- The second buffer of a pool at 2 MiB, given back with the address of its last byte. -/
theorem netBufpoolReturn_recovers_sample :
    (∃ t, netBufpoolReturn 0x200FFF (oneFree 0x200800).popped = .ok () t ∧
      PutBack 0x200000 0x200800 {0x200000, 0x201000, 0x201800} (oneFree 0x200800).popped t) ∧
      netBufpoolReturn 0x200FFF (oneFree 0x200800).popped = .ok () (oneFree 0x200800) := by
  have recovers := @netBufpoolReturn_recovers_iff 0x200000 1 0x200FFF (by decide) (by decide)
    (by decide) (by decide)
  have taken : netBufpoolGet ethMtu (oneFree 0x200800) =
      .ok (some (0x200800 + 8)) (oneFree 0x200800).popped := netBufpoolGet_some (by decide)
  exact ⟨(recovers.1 (oneFree 0x200800).popped _ ⟨[], rfl, rfl, by decide⟩).mpr (by decide),
    (recovers.2 _ _ ethMtu (by decide) taken).mpr (by decide)⟩

/-- At 4 GiB a buffer that was taken is not put back. The list is empty afterwards, and counts one
block. -/
theorem highBuffer_not_recovered :
    netBufpoolGet ethMtu (oneFree 0x100000000) =
        .ok (some (0x100000000 + 8)) (oneFree 0x100000000).popped ∧
      FreeList (oneFree 0x100000000).popped.mem (oneFree 0x100000000).popped.ethBufpool
        (oneFree 0x100000000).popped.ethBufpoolAvail (buffers 0x100000000)
          (0x100000000 ::ₘ {0x100000800, 0x100001000, 0x100001800}) ∧
      (¬ ∃ t, netBufpoolReturn (0x100000000 + 8) (oneFree 0x100000000).popped = .ok () t ∧
        PutBack 0x100000000 0x100000000 {0x100000800, 0x100001000, 0x100001800}
          (oneFree 0x100000000).popped t) ∧
      netBufpoolReturn (0x100000000 + 8) (oneFree 0x100000000).popped ≠
        .ok () (oneFree 0x100000000) ∧
      ∃ t, netBufpoolReturn (0x100000000 + 8) (oneFree 0x100000000).popped = .ok () t ∧
        t.ethBufpool = 0 ∧ t.ethBufpoolAvail = 1 := by
  have other : (0 : Nat) ≠ 0x100000000 := by decide
  refine ⟨netBufpoolGet_some (by decide), ⟨[], rfl, rfl, by decide⟩, ?_, ?_, _, rfl, rfl, rfl⟩
  · rintro ⟨t, run, back⟩
    cases run
    exact other back.head
  · intro same
    rw [netBufpoolReturn_run, EStateM.Result.ok.injEq] at same
    exact other (congrArg NetState.ethBufpool same.2)

/-! ## Start -/

/-- The last buffer that `net_bufpool_init` puts on the list, and the count. -/
theorem netBufpoolInit_last {s t : NetState} (none : s.ethBufpoolAvail = 0)
    (run : netBufpoolInit (some base) s = .ok () t) :
    t.ethBufpool = (base + 2048 * 3) &&& 0xFFFFF800 ∧ t.ethBufpoolAvail = 4 := by
  cases run
  refine ⟨rfl, ?_⟩
  show ((((s.ethBufpoolAvail + 1) % 2 ^ 32 + 1) % 2 ^ 32 + 1) % 2 ^ 32 + 1) % 2 ^ 32 = 4
  rw [none]
  rfl

/-- **After `net_bufpool_init` the pool is complete exactly when it lies below 4 GiB.** -/
theorem netBufpoolInit_balanced_iff (nonzero : base ≠ 0) (aligned : base % 4096 = 0)
    {s t : NetState} (empty : s.ethBufpool = 0) (none : s.ethBufpoolAvail = 0)
    (quiet : s.transmissions = []) (run : netBufpoolInit (some base) s = .ok () t) :
    Balanced base [] 0 t ↔ base + 0x2000 ≤ 2 ^ 32 := by
  constructor
  · intro balanced
    obtain ⟨head, avail⟩ := netBufpoolInit_last none run
    obtain ⟨free, linked, counted, account⟩ := balanced.list
    have last : t.ethBufpool ∈ buffers base := by
      cases free with
      | nil => exact absurd (counted.trans avail) (by decide)
      | cons first rest =>
          rw [linked.1, ← account]
          exact Multiset.mem_add.mpr (.inl (List.mem_cons_self ..))
    obtain ⟨place, bound, here⟩ := mem_buffers.mp last
    have field := and_fieldMask (base + 2048 * 3) 11 21
    rw [head, show 0xFFFFF800 = fieldMask 11 21 by decide, field] at here
    have : place < 4 := bound
    omega
  · intro below
    exact netBufpoolInit_balanced ⟨nonzero, aligned, below⟩ empty none quiet run

end Recovery

end VineyardLoader
