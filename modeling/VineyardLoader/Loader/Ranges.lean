import VineyardLoader.Loader.Stages

/-!
# Ranges that are mapped to themselves

The info page, the mode structures, the frame buffer, the image of the loader and the memory
map keep their addresses in the new tables. Their calls of `loader_paging_map` have one form
(`MapCall.IsIdentity`), so among them the order does not matter: a page with any such call
is mapped to itself (`lastFor_identity`).

The addresses are below the end of the lower half. Since `loader_paging_map_addr` also maps
the page after a range that ends with a page, its calls may reach the first page above the
lower half, which the tables see as the first page of the upper half.
-/

set_option autoImplicit false

namespace VineyardLoader

/-- The end of the lower half of the addresses. -/
def lowerEnd : Nat := 2 ^ 47

/-- The first page of the upper half, as the tables see it. -/
def upperPage : Nat := 2 ^ 35

theorem lowerEnd_eq : lowerEnd = upperPage * 4096 := rfl

theorem lowerEnd_add_page_lt : lowerEnd + 4096 < physicalEnd := by decide

/-- The call that maps a page to itself with the given flags. -/
def pageCall (page flags : Nat) : MapCall := ⟨page * 4096, page * 4096, flags⟩

/-- The call that maps a page to itself. -/
def identityCall (page : Nat) : MapCall := ⟨page * 4096, page * 4096, identityFlags⟩

/-- A call that maps a page of the lower half, or the one after it, to itself. -/
def MapCall.IsIdentity (call : MapCall) : Prop := ∃ page, page ≤ upperPage ∧ call = identityCall page

theorem identityCall_of_aligned {base : Nat} (aligned : base % pageSize = 0) :
    (⟨base, base, identityFlags⟩ : MapCall) = identityCall (base / 4096) := by
  simp only [pageSize] at aligned
  rw [identityCall, Nat.div_mul_cancel (Nat.dvd_of_mod_eq_zero aligned)]

theorem pageCall_injective {first second flags other : Nat}
    (same : pageCall first flags = pageCall second other) : first = second := by
  simp only [pageCall, MapCall.mk.injEq] at same
  omega

theorem identityCall_injective {first second : Nat}
    (same : identityCall first = identityCall second) : first = second :=
  @pageCall_injective first second identityFlags identityFlags same

theorem pageOf_pageCall {page flags : Nat} (low : page ≤ upperPage) :
    pageOf (pageCall page flags).virtual = page := by
  simp only [upperPage] at low
  simp only [pageOf, pageSize, pageCall]
  omega

theorem pageCall_mappable {page flags : Nat} (low : page ≤ upperPage) (valid : ValidFlags flags) :
    (pageCall page flags).Mappable := by
  simp only [upperPage] at low
  refine ⟨?_, ?_, ?_, valid⟩
  · simp only [pageCall]
    omega
  · simp only [slice, selfMapSlot, pageCall]
    omega
  · simp only [IsPage, pageSize, physicalEnd, pageCall]
    omega

theorem MapCall.IsIdentity.mappable {call : MapCall} (identity : call.IsIdentity) :
    call.Mappable := by
  obtain ⟨page, low, rfl⟩ := identity
  exact pageCall_mappable low linkFlags_valid

section LastFor

variable {calls : List MapCall} {flags : Nat}
  (pages : ∀ call ∈ calls, ∃ page, page ≤ upperPage ∧ call = pageCall page flags)
include pages

/-- Among calls with the same flags that map pages to themselves, a page with a call is mapped
to itself. -/
theorem lastFor_pageCall {page : Nat} (low : page ≤ upperPage)
    (member : pageCall page flags ∈ calls) :
    lastFor calls page = some (pageCall page flags) := by
  apply lastFor_eq_some member (pageOf_pageCall low)
  intro other otherMember here
  obtain ⟨found, foundLow, rfl⟩ := pages other otherMember
  rw [pageOf_pageCall foundLow] at here
  rw [here]

theorem lastFor_pageCall_eq_none {page : Nat} (noCall : pageCall page flags ∉ calls) :
    lastFor calls page = none := by
  rw [lastFor_eq_none]
  intro call member here
  obtain ⟨found, foundLow, rfl⟩ := pages call member
  rw [pageOf_pageCall foundLow] at here
  rw [here] at member
  exact noCall member

end LastFor

/-- **A page with a call that maps it to itself is mapped to itself**, whatever the order of
the calls. -/
theorem lastFor_identity {calls : List MapCall} (identity : ∀ call ∈ calls, call.IsIdentity)
    {page : Nat} (low : page ≤ upperPage) (member : identityCall page ∈ calls) :
    lastFor calls page = some (identityCall page) :=
  lastFor_pageCall identity low member

theorem lastFor_identity_eq_none {calls : List MapCall}
    (identity : ∀ call ∈ calls, call.IsIdentity) {page : Nat}
    (noCall : identityCall page ∉ calls) : lastFor calls page = none :=
  lastFor_pageCall_eq_none identity noCall

/-! ## Pages of the ranges -/

/-- `loader_paging_map_addr` takes the pages from the start to the end in order. -/
theorem rangeCalls_eq_map {start length flags : Nat} (low : start + length < physicalEnd) :
    rangeCalls start length flags =
      (List.range ((start + length) / 4096 - start / 4096 + 1)).map
        fun i => pageCall (start / 4096 + i) flags := by
  simp only [physicalEnd] at low
  have first : start &&& 0x000FFFFFFFFFF000 = start / 4096 * 4096 := by
    have field := and_fieldMask start 12 40
    rwa [Nat.mod_eq_of_lt (by omega)] at field
  have count : (1 + (((start + length) % 2 ^ 64) >>> 12 + 2 ^ 64 - start >>> 12)) % 2 ^ 64 =
      (start + length) / 4096 - start / 4096 + 1 := by
    simp only [Nat.shiftRight_eq_div_pow]
    omega
  rw [rangeCalls, count, first]
  refine List.map_congr_left fun i member => ?_
  have bound := List.mem_range.mp member
  have address : (start / 4096 * 4096 + (i <<< 12)) % 2 ^ 64 = (start / 4096 + i) * 4096 := by
    rw [Nat.shiftLeft_eq, Nat.add_mul]
    exact Nat.mod_eq_of_lt (by omega)
  rw [address, pageCall]

theorem mem_rangeCalls {start length flags : Nat} (low : start + length < physicalEnd)
    {call : MapCall} :
    call ∈ rangeCalls start length flags ↔
      ∃ page, start / 4096 ≤ page ∧ page ≤ (start + length) / 4096 ∧
        call = pageCall page flags := by
  have ordered : start / 4096 ≤ (start + length) / 4096 :=
    Nat.div_le_div_right (Nat.le_add_right _ _)
  rw [rangeCalls_eq_map low, List.mem_map]
  constructor
  · rintro ⟨i, member, rfl⟩
    have bound := List.mem_range.mp member
    exact ⟨start / 4096 + i, Nat.le_add_right _ _, by omega, rfl⟩
  · rintro ⟨page, lower, upper, rfl⟩
    obtain ⟨i, rfl⟩ := Nat.exists_eq_add_of_le lower
    exact ⟨i, List.mem_range.mpr (by omega), rfl⟩

theorem mem_addrCalls {start length : Nat} (low : start + length < physicalEnd) {call : MapCall} :
    call ∈ addrCalls start length ↔
      ∃ page, start / 4096 ≤ page ∧ page ≤ (start + length) / 4096 ∧ call = identityCall page :=
  mem_rangeCalls low

/-- A range that is counted by its size is mapped page by page. -/
theorem mem_sizeCalls {base size : Nat} (aligned : base % pageSize = 0)
    (low : base + size ≤ physicalEnd) {call : MapCall} :
    call ∈ sizeCalls base size ↔
      ∃ page, base / 4096 ≤ page ∧ page * 4096 < base + size ∧ call = identityCall page := by
  simp only [physicalEnd] at low
  simp only [pageSize] at aligned
  obtain ⟨first, rfl⟩ : ∃ first, base = first * 4096 := ⟨base / 4096, by omega⟩
  rw [Nat.mul_div_cancel _ (by decide)]
  simp only [sizeCalls, List.mem_map, List.mem_range, Nat.shiftRight_eq_div_pow,
    Nat.shiftLeft_eq, identityCall]
  have count : ∀ i, (i < if size % 0x1000 = 0 then size / 2 ^ 12 else size / 2 ^ 12 + 1) ↔
      i * 4096 < size := by
    intro i
    split
    · omega
    · omega
  constructor
  · rintro ⟨i, bound, rfl⟩
    rw [count] at bound
    refine ⟨first + i, by omega, ?_, ?_⟩
    · rw [Nat.add_mul]
      exact Nat.add_lt_add_left bound _
    · rw [MapCall.mk.injEq]
      omega
  · rintro ⟨page, lower, upper, rfl⟩
    obtain ⟨i, rfl⟩ := Nat.exists_eq_add_of_le lower
    rw [Nat.add_mul] at upper
    have bound := Nat.lt_of_add_lt_add_left upper
    refine ⟨i, (count i).mpr bound, ?_⟩
    rw [MapCall.mk.injEq]
    omega

theorem addrCalls_isIdentity {start length : Nat} (low : start + length < lowerEnd + 4096) :
    ∀ call ∈ addrCalls start length, call.IsIdentity := by
  have pages := lowerEnd_eq
  have physical := low.trans lowerEnd_add_page_lt
  intro call member
  obtain ⟨page, -, upper, rfl⟩ := (mem_addrCalls physical).mp member
  exact ⟨page, by omega, rfl⟩

theorem sizeCalls_isIdentity {base size : Nat} (aligned : base % pageSize = 0)
    (low : base + size ≤ lowerEnd) : ∀ call ∈ sizeCalls base size, call.IsIdentity := by
  have pages := lowerEnd_eq
  have room := lowerEnd_add_page_lt
  have physical : base + size ≤ physicalEnd := by omega
  intro call member
  obtain ⟨page, -, upper, rfl⟩ := (mem_sizeCalls aligned physical).mp member
  exact ⟨page, by omega, rfl⟩

end VineyardLoader
