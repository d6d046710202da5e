import VineyardLoader.Loader.Entry

/-!
# Ranges and structures that keep their addresses

`loader_paging_map_addr` maps every page that a range touches, with one set of flags, and
leaves the other pages alone (`loaderPagingMapAddr_identity`). How far it goes depends on the
length it is given.

`framebuffer_get` gives it the size of a pointer in place of the size of a structure. So the
second page of a structure that crosses a page boundary may be left out. The mode structures
are mapped as a whole exactly when something else maps that page (`framebufferGet_mapped_iff`).
-/

set_option autoImplicit false

namespace VineyardLoader

variable {fw : Firmware} {platform : Platform} {machine final : Machine} {pml4 : Nat}

/-! ## One range -/

theorem loaderPagingMapAddr_error {start length flags : Nat} {reason : Halt}
    (run : loaderPagingMapAddr fw pml4 start length flags machine = .error reason final) :
    fw.allocatePages final 1 = none := by
  rw [loaderPagingMapAddr_eq_rangeCalls] at run
  exact (loaderPagingMapAll_error run).2

theorem pageOf_of_lt_lowerEnd {v : Nat} (low : v < lowerEnd) : pageOf v = v / 4096 := by
  simp only [lowerEnd] at low
  simp only [pageOf, pageSize]
  omega

theorem inner_of_lt_lowerEnd {v : Nat} (low : v < lowerEnd) : slice v 39 ≠ selfMapSlot := by
  simp only [lowerEnd] at low
  simp only [slice, selfMapSlot]
  omega

/-- What a walk finds at a page that is mapped to itself leads back to the address. -/
theorem translate_of_walk_page {mem : Memory} {v flags : Nat} {writable noExecute : Bool}
    (found : walk mem pml4 v = some ⟨v / 4096 * 4096, flags, writable, noExecute⟩) :
    translate mem pml4 v = some v := by
  rw [translate, found, Option.map_some, pageSize, Nat.div_add_mod']

/-- The calls of a range of the lower half are calls of its pages. -/
theorem rangeCalls_pages {start length flags : Nat} (low : start + length < lowerEnd) :
    ∀ call ∈ rangeCalls start length flags,
      ∃ page, page ≤ upperPage ∧ call = pageCall page flags := by
  have pages := lowerEnd_eq
  have physical : start + length < physicalEnd := by
    have room := lowerEnd_add_page_lt
    omega
  intro call member
  obtain ⟨page, -, upper, rfl⟩ := (mem_rangeCalls physical).mp member
  exact ⟨page, by omega, rfl⟩

/-- **`loader_paging_map_addr` maps a range to itself.** In well-formed tables, with a firmware
that never refuses a page, every address of the range is mapped to itself with exactly the
given flags, and an address of a page that the range does not touch keeps its translation. -/
theorem loaderPagingMapAddr_identity (fw : Firmware) (machine : Machine)
    {pml4 start length flags : Nat} (holds : HoldsTables machine pml4)
    (low : start + length < 2 ^ 47) (valid : ValidFlags flags)
    (granted : ∀ reason stopped,
      loaderPagingMapAddr fw pml4 start length flags machine = .error reason stopped →
        fw.allocatePages stopped 1 ≠ none) :
    ∃ final, loaderPagingMapAddr fw pml4 start length flags machine = .ok () final ∧
      HoldsTables final pml4 ∧
      (∀ a, start ≤ a → a < start + length →
        walk final.mem pml4 a =
            some ⟨a / 4096 * 4096, flags, flags &&& pageWrite != 0, flags &&& pageNx != 0⟩ ∧
          translate final.mem pml4 a = some a) ∧
      ∀ v, Canonical v → slice v 39 ≠ selfMapSlot →
        ¬ (start >>> 12 ≤ v >>> 12 ∧ v >>> 12 ≤ (start + length) >>> 12) →
          walk final.mem pml4 v = walk machine.mem pml4 v := by
  obtain ⟨⟨⟩, final, run⟩ := exists_ok_of_not_error fun reason stopped stops =>
    granted reason stopped stops (loaderPagingMapAddr_error stops)
  have physical : start + length < physicalEnd := by
    simp only [physicalEnd]
    omega
  have pages : ∀ call ∈ rangeCalls start length flags,
      ∃ page, page ≤ upperPage ∧ call = pageCall page flags := rangeCalls_pages low
  have mappable : ∀ call ∈ rangeCalls start length flags, call.Mappable := by
    intro call member
    obtain ⟨page, below, rfl⟩ := pages call member
    exact pageCall_mappable below valid
  have asked := run
  rw [loaderPagingMapAddr_eq_rangeCalls] at asked
  obtain ⟨after, -, walks⟩ := loaderPagingMapAll_walk holds mappable asked
  refine ⟨final, run, after, ?_, ?_⟩
  · intro a lower upper
    have inside : a < lowerEnd := upper.trans low
    have member : pageCall (a / 4096) flags ∈ rangeCalls start length flags :=
      (mem_rangeCalls physical).mpr
        ⟨a / 4096, Nat.div_le_div_right lower, Nat.div_le_div_right upper.le, rfl⟩
    have found : walk final.mem pml4 a =
        some ⟨a / 4096 * 4096, flags, flags &&& pageWrite != 0, flags &&& pageNx != 0⟩ := by
      obtain ⟨page, below, same⟩ := pages _ member
      obtain rfl : a / 4096 = page := pageCall_injective same
      rw [walks a (inner_of_lt_lowerEnd inside), pageOf_of_lt_lowerEnd inside,
        lastFor_pageCall pages below member]
      rfl
    exact ⟨found, translate_of_walk_page found⟩
  · intro v canonical inner outside
    have noCall : pageCall (pageOf v) flags ∉ rangeCalls start length flags := by
      intro member
      obtain ⟨page, lower, upper, same⟩ := (mem_rangeCalls physical).mp member
      have here : pageOf v = page := pageCall_injective same
      apply outside
      simp only [Nat.shiftRight_eq_div_pow]
      simp only [pageOf, pageSize] at here
      simp only [Canonical] at canonical
      omega
    rw [walks v inner, lastFor_pageCall_eq_none pages noCall]
    rfl

/-- Tables that were made by `loader_paging_setup` and calls of `loader_paging_map`. -/
theorem loaderPagingCalls_holdsTables {calls : List MapCall}
    (mappable : ∀ call ∈ calls, call.Mappable)
    (run : loaderPagingCalls fw calls machine = .ok pml4 final) : HoldsTables final pml4 := by
  obtain ⟨root, middle, setup, rest⟩ := bind_eq_ok.mp run
  obtain ⟨⟨⟩, last, loop, done⟩ := bind_eq_ok.mp rest
  obtain ⟨rfl, rfl⟩ : root = pml4 ∧ last = final := by simpa using done
  exact (loaderPagingMapAll_walk ⟨_, loaderPagingSetup_refines setup⟩ mappable loop).1

/-- A range of 16 bytes on two pages, one of which was mapped elsewhere before. -/
theorem loaderPagingMapAddr_identity_sample :
    ∃ pml4 middle final,
      loaderPagingCalls (bumpFirmware [] (by decide)) sampleCalls freshMachine = .ok pml4 middle ∧
        loaderPagingMapAddr (bumpFirmware [] (by decide)) pml4 0x3FFFF8 16 3 middle =
          .ok () final ∧
        translate final.mem pml4 0x400004 = some 0x400004 := by
  have runs : returned ((do
      let pml4 ← loaderPagingCalls (bumpFirmware [] (by decide)) sampleCalls
      loaderPagingMapAddr (bumpFirmware [] (by decide)) pml4 0x3FFFF8 16 3) freshMachine) = true := by
    decide +kernel
  obtain ⟨⟨⟩, last, whole⟩ := exists_ok_of_returned runs
  obtain ⟨pml4, middle, built, maps⟩ := bind_eq_ok.mp whole
  have holds : HoldsTables middle pml4 :=
    loaderPagingCalls_holdsTables (fun call member => (sampleCalls_valid call member).mappable) built
  obtain ⟨final, run, -, inside, -⟩ := @loaderPagingMapAddr_identity (bumpFirmware [] (by decide))
    middle pml4 0x3FFFF8 16 3 holds (by decide) (by decide)
    fun reason stopped stops => by rw [maps] at stops; cases stops
  exact ⟨pml4, middle, final, built, run, (inside 0x400004 (by decide) (by decide)).2⟩

/-! ## The mode structures and the frame buffer -/

/-- The mode structure: 40 bytes by the specification. -/
def GopMode.structure (mode : GopMode) : Extent := ⟨mode.address, 40⟩

/-- Its `Info` structure: 36 bytes by the specification. -/
def GopMode.infoStructure (mode : GopMode) : Extent := ⟨mode.info, 36⟩

def GopMode.frameBuffer (mode : GopMode) : Extent := ⟨mode.frameBufferBase, mode.frameBufferSize⟩

/-- Every byte of a range has an address, and is mapped to itself, present and writable. -/
structure HandedOver (mem : Memory) (pml4 : Nat) (extent : Extent) : Prop where
  canonical : ∀ v, extent.Contains v → Canonical v
  mapped : IdentityMapped mem pml4 extent

/-- The pages that `framebuffer_get` maps. -/
def GopMode.MapsPage (mode : GopMode) (page : Nat) : Prop :=
  (mode.address / 4096 ≤ page ∧ page ≤ (mode.address + 8) / 4096) ∨
    (mode.info / 4096 ≤ page ∧ page ≤ (mode.info + 8) / 4096) ∨
      (mode.frameBufferBase / 4096 ≤ page ∧
        page * 4096 < mode.frameBufferBase + mode.frameBufferSize)

/-- A page that `framebuffer_get` maps, or that is mapped to itself already. -/
def GopMode.Reaches (mode : GopMode) (mem : Memory) (pml4 page : Nat) : Prop :=
  mode.MapsPage page ∨
    walk mem pml4 (page * 4096) = some ⟨page * 4096, pagePresent ||| pageWrite, true, false⟩

/-- The structures and the frame buffer end in the lower half, and where the first eight bytes
of a structure lie on one page and the structure goes on to the next, that page is reached in
another way. -/
structure GopMode.Covered (mode : GopMode) (mem : Memory) (pml4 : Nat) : Prop where
  ends : mode.address + 40 ≤ 2 ^ 47
  infoEnds : mode.info + 36 ≤ 2 ^ 47
  frameBufferEnds : mode.frameBufferSize = 0 ∨
    mode.frameBufferBase + mode.frameBufferSize ≤ 2 ^ 47
  next : 4056 < mode.address % 4096 → mode.address % 4096 < 4088 →
    mode.Reaches mem pml4 (mode.address / 4096 + 1)
  infoNext : 4060 < mode.info % 4096 → mode.info % 4096 < 4088 →
    mode.Reaches mem pml4 (mode.info / 4096 + 1)

/-- A walk finds frames of physical memory only. -/
theorem frame_lt_of_walk {mem : Memory} {v : Nat} {found : Translation}
    (walks : walk mem pml4 v = some found) : found.frame < 2 ^ 52 := by
  simp only [walk, Option.bind_eq_bind, Option.bind_eq_some_iff, Option.pure_def,
    Option.some.injEq] at walks
  obtain ⟨_, -, _, -, _, -, leaf, -, rfl⟩ := walks
  have bound : leaf &&& frameMask ≤ frameMask := Nat.and_le_right
  exact Nat.lt_of_le_of_lt bound (by decide)

/-- What is mapped to itself lies in the lower half. -/
theorem HandedOver.lt {mem : Memory} {extent : Extent} (handed : HandedOver mem pml4 extent)
    {v : Nat} (inside : extent.Contains v) : v < 2 ^ 47 := by
  have canonical := handed.canonical v inside
  have frame := frame_lt_of_walk (handed.mapped v inside)
  simp only [Canonical] at canonical
  simp only at frame
  omega

/-- A range that is mapped to itself ends in the lower half. -/
theorem HandedOver.end_le {mem : Memory} {start size : Nat}
    (handed : HandedOver mem pml4 ⟨start, size⟩) : size = 0 ∨ start + size ≤ 2 ^ 47 := by
  by_cases empty : size = 0
  · exact .inl empty
  · have inside : Extent.Contains ⟨start, size⟩ (start + size - 1) := by
      simp only [Extent.Contains]
      omega
    have last := handed.lt inside
    exact .inr (by omega)

/-- The walk sees only the page of an address. -/
theorem walk_congr_page {mem : Memory} {v w : Nat} (same : pageOf v = pageOf w) :
    walk mem pml4 v = walk mem pml4 w := by
  obtain ⟨fourth, third, second, first⟩ := slices_eq v
  obtain ⟨fourth', third', second', first'⟩ := slices_eq w
  rw [walk, walk, fourth, third, second, first, fourth', third', second', first', same]

section Calls

variable {mode : GopMode} (aligned : mode.frameBufferBase % pageSize = 0)
  (ends : mode.address + 40 ≤ 2 ^ 47) (infoEnds : mode.info + 36 ≤ 2 ^ 47)
  (frameBufferEnds : mode.frameBufferSize = 0 ∨
    mode.frameBufferBase + mode.frameBufferSize ≤ 2 ^ 47)
include aligned ends infoEnds frameBufferEnds

/-- The calls of `framebuffer_get` are those of its pages. -/
theorem mem_modeCalls {call : MapCall} :
    call ∈ modeCalls mode ↔ ∃ page, mode.MapsPage page ∧ call = identityCall page := by
  have physical : 2 ^ 47 < physicalEnd := by decide
  have sized : call ∈ sizeCalls mode.frameBufferBase mode.frameBufferSize ↔
      ∃ page, mode.frameBufferBase / 4096 ≤ page ∧
        page * 4096 < mode.frameBufferBase + mode.frameBufferSize ∧ call = identityCall page := by
    rcases frameBufferEnds with empty | below
    · -- no page starts before the end of an empty range and not before its start
      simp only [pageSize] at aligned
      rw [empty]
      constructor
      · intro member
        simp [sizeCalls] at member
      · rintro ⟨page, lower, upper, -⟩
        omega
    · exact mem_sizeCalls aligned (by omega)
  rw [modeCalls, List.mem_append, List.mem_append, mem_addrCalls (by omega),
    mem_addrCalls (by omega), sized]
  constructor
  · rintro (⟨page, lower, upper, rfl⟩ | ⟨page, lower, upper, rfl⟩ | ⟨page, lower, upper, rfl⟩)
    · exact ⟨page, .inl ⟨lower, upper⟩, rfl⟩
    · exact ⟨page, .inr (.inl ⟨lower, upper⟩), rfl⟩
    · exact ⟨page, .inr (.inr ⟨lower, upper⟩), rfl⟩
  · rintro ⟨page, ⟨lower, upper⟩ | ⟨lower, upper⟩ | ⟨lower, upper⟩, rfl⟩
    · exact .inl ⟨page, lower, upper, rfl⟩
    · exact .inr (.inl ⟨page, lower, upper, rfl⟩)
    · exact .inr (.inr ⟨page, lower, upper, rfl⟩)

theorem GopMode.MapsPage.le {page : Nat} (maps : mode.MapsPage page) : page ≤ upperPage := by
  simp only [upperPage]
  simp only [pageSize] at aligned
  rcases maps with ⟨lower, upper⟩ | ⟨lower, upper⟩ | ⟨lower, upper⟩
  · omega
  · omega
  · omega

theorem modeCalls_pages : ∀ call ∈ modeCalls mode, call.IsIdentity := by
  intro call member
  obtain ⟨page, maps, rfl⟩ := (mem_modeCalls aligned ends infoEnds frameBufferEnds).mp member
  exact ⟨page, maps.le aligned ends infoEnds frameBufferEnds, rfl⟩

/-- **What `framebuffer_get` does to a page of the lower half**: it is mapped to itself after the
calls exactly when one of them maps it, or it was before. -/
theorem walk_modeCalls_iff (holds : HoldsTables machine pml4)
    (run : loaderPagingMapAll fw pml4 (modeCalls mode) machine = .ok () final) {v : Nat}
    (low : v < 2 ^ 47) :
    walk final.mem pml4 v = some ⟨v / 4096 * 4096, pagePresent ||| pageWrite, true, false⟩ ↔
      mode.Reaches machine.mem pml4 (v / 4096) := by
  have identity := modeCalls_pages aligned ends infoEnds frameBufferEnds
  obtain ⟨-, -, walks⟩ := loaderPagingMapAll_walk holds (fun call member =>
    (identity call member).mappable) run
  have page := pageOf_of_lt_lowerEnd low
  have start : pageOf v = pageOf (v / 4096 * 4096) := by
    rw [page, pageOf_of_lt_lowerEnd (lt_of_le_of_lt (Nat.div_mul_le_self v 4096) low),
      Nat.mul_div_cancel _ (by decide)]
  have called : identityCall (v / 4096) ∈ modeCalls mode ↔ mode.MapsPage (v / 4096) := by
    rw [mem_modeCalls aligned ends infoEnds frameBufferEnds]
    constructor
    · rintro ⟨other, maps, same⟩
      rwa [identityCall_injective same]
    · intro maps
      exact ⟨_, maps, rfl⟩
  rw [walks v (inner_of_lt_lowerEnd low), page, GopMode.Reaches, ← called]
  by_cases member : identityCall (v / 4096) ∈ modeCalls mode
  · obtain ⟨other, below, same⟩ := identity _ member
    rw [← identityCall_injective same] at below
    rw [lastFor_identity identity below member]
    simp only [member, true_or, iff_true]
    exact congrArg some (translation_writable _ _)
  · rw [lastFor_identity_eq_none identity member, walk_congr_page start]
    simp [member]

/-- A structure of which the first eight bytes are mapped is mapped to itself exactly when its
second page is reached in another way, where the first eight bytes do not reach that page. -/
theorem handedOver_iff (holds : HoldsTables machine pml4)
    (run : loaderPagingMapAll fw pml4 (modeCalls mode) machine = .ok () final) {start size : Nat}
    (short : size ≤ 4096) (below : start + size ≤ 2 ^ 47)
    (eight : ∀ page, start / 4096 ≤ page → page ≤ (start + 8) / 4096 → mode.MapsPage page) :
    HandedOver final.mem pml4 ⟨start, size⟩ ↔
      (4096 - size < start % 4096 → start % 4096 < 4088 →
        mode.Reaches machine.mem pml4 (start / 4096 + 1)) := by
  have pages : ∀ v, v < 2 ^ 47 → _ := fun v low =>
    walk_modeCalls_iff aligned ends infoEnds frameBufferEnds holds run (v := v) low
  constructor
  · intro handed past _
    have inside : Extent.Contains ⟨start, size⟩ ((start / 4096 + 1) * 4096) := by
      simp only [Extent.Contains]
      omega
    have reached := (pages _ (handed.lt inside)).mp (handed.mapped _ inside)
    rwa [Nat.mul_div_cancel _ (by decide)] at reached
  · intro next
    have low : ∀ v, Extent.Contains ⟨start, size⟩ v → v < 2 ^ 47 := fun v inside =>
      lt_of_lt_of_le inside.2 below
    refine ⟨fun v inside => .inl (low v inside), fun v inside => (pages v (low v inside)).mpr ?_⟩
    simp only [Extent.Contains] at inside
    by_cases near : v / 4096 ≤ (start + 8) / 4096
    · exact .inl (eight _ (Nat.div_le_div_right inside.1) near)
    · have after : v / 4096 = start / 4096 + 1 := by omega
      rw [after]
      exact next (by omega) (by omega)

end Calls

/-- **The graphics hand-off.** `framebuffer_get` has selected a mode with an aligned frame
buffer. Every byte of the two structures and of the frame buffer is mapped to itself exactly
when the structures are covered. -/
theorem framebufferGet_mapped_iff (fw : Firmware) (platform : Platform)
    (machine middle final : Machine) {pml4 address : Nat} {mode : GopMode}
    (holds : HoldsTables machine pml4)
    (chosen : framebufferMode fw platform machine = .ok mode middle)
    (run : framebufferGet fw platform pml4 machine = .ok address final)
    (aligned : mode.frameBufferBase % pageSize = 0) :
    (HandedOver final.mem pml4 mode.structure ∧ HandedOver final.mem pml4 mode.infoStructure ∧
      HandedOver final.mem pml4 mode.frameBuffer) ↔ mode.Covered machine.mem pml4 := by
  obtain ⟨-, kept⟩ := framebufferMode_ok chosen
  rw [framebufferGet_eq, bind_of_ok chosen] at run
  obtain ⟨⟨⟩, last, maps, done⟩ := bind_eq_ok.mp run
  obtain ⟨-, rfl⟩ : mode.address = address ∧ last = final := by simpa using done
  have tables := holds.of_store kept
  have memory : middle.mem = machine.mem := congrArg Prod.fst kept
  constructor
  · rintro ⟨structure_, info, frameBuffer⟩
    have ends : mode.address + 40 ≤ 2 ^ 47 := structure_.end_le.resolve_left (by decide)
    have infoEnds : mode.info + 36 ≤ 2 ^ 47 := info.end_le.resolve_left (by decide)
    have next := (handedOver_iff aligned ends infoEnds frameBuffer.end_le tables maps (by decide)
      ends fun page lower upper => .inl ⟨lower, upper⟩).mp structure_
    have infoNext := (handedOver_iff aligned ends infoEnds frameBuffer.end_le tables maps
      (by decide) infoEnds fun page lower upper => .inr (.inl ⟨lower, upper⟩)).mp info
    rw [memory] at next infoNext
    exact ⟨ends, infoEnds, frameBuffer.end_le, next, infoNext⟩
  · rintro ⟨ends, infoEnds, frameBufferEnds, next, infoNext⟩
    rw [← memory] at next infoNext
    refine ⟨?_, ?_, ?_⟩
    · exact (handedOver_iff aligned ends infoEnds frameBufferEnds tables maps (by decide)
        ends fun page lower upper => .inl ⟨lower, upper⟩).mpr next
    · exact (handedOver_iff aligned ends infoEnds frameBufferEnds tables maps (by decide)
        infoEnds fun page lower upper => .inr (.inl ⟨lower, upper⟩)).mpr infoNext
    · have low : ∀ v, mode.frameBuffer.Contains v → v < 2 ^ 47 := by
        intro v inside
        simp only [GopMode.frameBuffer, Extent.Contains] at inside
        omega
      refine ⟨fun v inside => .inl (low v inside), fun v inside => ?_⟩
      apply (walk_modeCalls_iff aligned ends infoEnds frameBufferEnds tables maps
        (low v inside)).mpr
      simp only [GopMode.frameBuffer, Extent.Contains] at inside
      exact .inl (.inr (.inr ⟨by omega, by omega⟩))

/-! ## Two modes -/

/-- Whether `framebuffer_get` runs on new tables, and its mode and the tables after it pass a
test. -/
def handsOver (platform : Platform) (test : Nat → GopMode → Machine → Bool) : Bool :=
  match loaderPagingSetup (bumpFirmware [] (by decide)) freshMachine with
  | .error _ _ => false
  | .ok pml4 before =>
      match framebufferMode (bumpFirmware [] (by decide)) platform before,
        framebufferGet (bumpFirmware [] (by decide)) platform pml4 before with
      | .ok mode _, .ok _ final => test pml4 mode final
      | _, _ => false

theorem handsOver_ok {platform : Platform} {test : Nat → GopMode → Machine → Bool}
    (passes : handsOver platform test = true) :
    ∃ pml4 before mode middle address final,
      loaderPagingSetup (bumpFirmware [] (by decide)) freshMachine = .ok pml4 before ∧
        framebufferMode (bumpFirmware [] (by decide)) platform before = .ok mode middle ∧
        framebufferGet (bumpFirmware [] (by decide)) platform pml4 before = .ok address final ∧
        test pml4 mode final = true := by
  rw [handsOver] at passes
  split at passes
  · cases passes
  · rename_i pml4 before setup
    split at passes
    · rename_i mode middle address final chosen run
      exact ⟨pml4, before, mode, middle, address, final, setup, chosen, run, passes⟩
    · cases passes

/-- The structures of a mode that lie on one page are handed over. -/
theorem framebufferGet_mapped_sample :
    ∃ pml4 before mode middle address final,
      loaderPagingSetup (bumpFirmware [] (by decide)) freshMachine = .ok pml4 before ∧
        framebufferMode (bumpFirmware [] (by decide)) samplePlatform before = .ok mode middle ∧
        framebufferGet (bumpFirmware [] (by decide)) samplePlatform pml4 before =
          .ok address final ∧
        mode = ⟨0x7000, 0x7100, 0x80000000, 0x2000⟩ ∧
        HandedOver final.mem pml4 mode.structure := by
  have check : handsOver samplePlatform
      (fun _ mode _ => mode == ⟨0x7000, 0x7100, 0x80000000, 0x2000⟩) = true := by
    decide +kernel
  obtain ⟨pml4, before, mode, middle, address, final, setup, chosen, run, same⟩ :=
    handsOver_ok check
  obtain rfl := beq_iff_eq.mp same
  have covered : GopMode.Covered ⟨0x7000, 0x7100, 0x80000000, 0x2000⟩ before.mem pml4 :=
    ⟨by decide, by decide, by decide, fun past => absurd past (by decide),
      fun past => absurd past (by decide)⟩
  exact ⟨pml4, before, _, middle, address, final, setup, chosen, run, rfl,
    ((framebufferGet_mapped_iff (bumpFirmware [] (by decide)) samplePlatform before middle final
      ⟨_, loaderPagingSetup_refines setup⟩ chosen run (by decide)).mpr covered).1⟩

/-- A graphics output with one mode, whose structure crosses a page boundary at its byte 32. -/
def crossingPlatform : Platform :=
  { samplePlatform with
    openGop := fun _ _ => some (some ⟨1, fun _ => some (640, 480), fun _ => true,
      fun _ => ⟨0x7FE0, 0x9000, 0x80000000, 0x2000⟩⟩) }

/-- The second page of the structure is not mapped. -/
theorem crossingMode_lost :
    ∃ pml4 before mode middle address final,
      loaderPagingSetup (bumpFirmware [] (by decide)) freshMachine = .ok pml4 before ∧
        framebufferMode (bumpFirmware [] (by decide)) crossingPlatform before = .ok mode middle ∧
        framebufferGet (bumpFirmware [] (by decide)) crossingPlatform pml4 before =
          .ok address final ∧
        mode = ⟨0x7FE0, 0x9000, 0x80000000, 0x2000⟩ ∧
        mode.structure.Contains 0x8000 ∧ walk final.mem pml4 0x8000 = none ∧
        ¬ HandedOver final.mem pml4 mode.structure := by
  have check : handsOver crossingPlatform
      (fun pml4 mode final => mode == ⟨0x7FE0, 0x9000, 0x80000000, 0x2000⟩ &&
        walk final.mem pml4 0x8000 == none) = true := by
    decide +kernel
  obtain ⟨pml4, before, mode, middle, address, final, setup, chosen, run, test⟩ :=
    handsOver_ok check
  rw [Bool.and_eq_true, beq_iff_eq, beq_iff_eq] at test
  obtain ⟨rfl, lost⟩ := test
  refine ⟨pml4, before, _, middle, address, final, setup, chosen, run, rfl, by decide, lost, ?_⟩
  intro handed
  have found := handed.mapped 0x8000 (by decide)
  rw [lost] at found
  cases found

end VineyardLoader
