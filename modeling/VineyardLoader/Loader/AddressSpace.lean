import Mathlib.Logic.Function.Basic
import VineyardLoader.Loader.PageTree

/-!
# The page tables refine an address space

An address space gives each page at most one mapping: a frame and its flags. To map a page
replaces the mapping of that page. This is what the page tables are for, and `Refines` says
that a machine's tables hold a given address space.

`loader_paging_setup` gives the empty address space (`loaderPagingSetup_refines`), and
`loader_paging_map` maps one page (`loaderPagingMap_refines`). Along a sequence of calls
the last call for a page decides (`mapAll_requests`), and the processor's walk finds what the
address space says (`Refines.walk_eq`). `loaderPaging_refines_calls` puts these together.
-/

set_option autoImplicit false

namespace VineyardLoader

/-! ## Address spaces -/

/-- A mapping: a frame of physical memory and the flags of a present entry. -/
structure Mapping where
  frame : Nat
  flags : Nat
  isPage : IsPage frame
  valid : ValidFlags flags

/-- A mapping of each page, or none. -/
abbrev AddressSpace := Nat → Option Mapping

namespace AddressSpace

/-- Map one page. -/
def map (space : AddressSpace) (page : Nat) (mapping : Mapping) : AddressSpace :=
  Function.update space page (some mapping)

/-- Map pages one after the other. -/
def mapAll (space : AddressSpace) (requests : List (Nat × Mapping)) : AddressSpace :=
  requests.foldl (fun current request => current.map request.1 request.2) space

theorem mapAll_concat (space : AddressSpace) (requests : List (Nat × Mapping))
    (request : Nat × Mapping) :
    space.mapAll (requests ++ [request]) = (space.mapAll requests).map request.1 request.2 := by
  simp [mapAll]

end AddressSpace

/-- The entry that holds a mapping. -/
def Mapping.entry (mapping : Mapping) : Nat := mapping.frame ||| mapping.flags

/-- What a walk finds at a mapping. -/
def Mapping.translation (mapping : Mapping) : Translation where
  frame := mapping.frame
  flags := mapping.flags
  writable := mapping.flags &&& pageWrite != 0
  noExecute := mapping.flags &&& pageNx != 0

theorem Mapping.combine_entry (mapping : Mapping) :
    combine [] mapping.entry = mapping.translation := by
  have write : (mapping.frame ||| mapping.flags) &&& pageWrite = mapping.flags &&& pageWrite :=
    entry_and mapping.isPage (by decide)
  have execute : (mapping.frame ||| mapping.flags) &&& pageNx = mapping.flags &&& pageNx :=
    entry_and mapping.isPage (by decide)
  simp only [combine, Mapping.entry, Mapping.translation, List.nil_append, List.all_cons,
    List.all_nil, List.any_cons, List.any_nil, Bool.and_true, Bool.or_false, write, execute,
    frameOf_entry mapping.isPage mapping.valid, entry_and_flagMask mapping.isPage mapping.valid]

/-! ## Pages and paths -/

/-- The path of tables to the leaf entry of a page. -/
def pagePath (page : Nat) : List Nat := [page / 2 ^ 27, page / 2 ^ 18 % 512, page / 2 ^ 9 % 512]

/-- A page that the walk does not reach through the self-map. -/
def Inner (page : Nat) : Prop := page < 2 ^ 36 ∧ page / 2 ^ 27 ≠ selfMapSlot

theorem pageOf_lt (v : Nat) : pageOf v < 2 ^ 36 := Nat.mod_lt _ (by decide)

theorem inner_pageOf {v : Nat} : Inner (pageOf v) ↔ slice v 39 ≠ selfMapSlot := by
  rw [Inner, (slices_eq v).1]
  exact and_iff_right (pageOf_lt v)

theorem slices_eq_pagePath (v : Nat) :
    [slice v 39, slice v 30, slice v 21] = pagePath (pageOf v) ∧
      slice v 12 = pageOf v % 512 := by
  obtain ⟨fourth, third, second, first⟩ := slices_eq v
  rw [pagePath, fourth, third, second]
  exact ⟨rfl, first⟩

theorem page_eq_of_path {first second : Nat} (paths : pagePath first = pagePath second)
    (leaves : first % 512 = second % 512) : first = second := by
  simp only [pagePath, List.cons.injEq, and_true] at paths
  omega

/-! ## Refinement -/

/-- The tables of a machine hold an address space. -/
structure Refines (machine : Machine) (pml4 : Nat) (space : AddressSpace) : Prop where
  tree : PageTree machine pml4
  leaf : ∀ page, Inner page →
    leafEntry machine.mem pml4 (pagePath page) (page % 512) = (space page).map Mapping.entry

/-- **The processor finds what the address space says.** -/
theorem Refines.walk_eq {machine : Machine} {pml4 : Nat} {space : AddressSpace}
    (refines : Refines machine pml4 space) {v : Nat} (inner : slice v 39 ≠ selfMapSlot) :
    walk machine.mem pml4 v = (space (pageOf v)).map Mapping.translation := by
  obtain ⟨path, leaf⟩ := slices_eq_pagePath v
  rw [refines.tree.walk_eq_leafEntry inner, path, leaf, refines.leaf _ (inner_pageOf.mpr inner),
    Option.map_map]
  congr 1
  funext mapping
  exact mapping.combine_entry

/-! ## The loader's operations -/

variable {fw : Firmware} {machine final : Machine} {pml4 : Nat}

/-- One level of `loader_paging_map`: the next table of the path is there, and nothing is
mapped or unmapped. -/
theorem nextTable_ok (tree : PageTree machine pml4) {path : List Nat} {table index result : Nat}
    (short : path.length < 3) (ends : tableAt machine.mem pml4 path = some table)
    (bounded : index < 512) (inner : ¬ (table = pml4 ∧ index = selfMapSlot))
    (run : nextTable fw table index machine = .ok result final) :
    Grows pml4 machine final ∧ tableAt final.mem pml4 (path ++ [index]) = some result ∧
      ∀ other leaf, other.length = 3 → leaf < 512 →
        leafEntry final.mem pml4 other leaf = leafEntry machine.mem pml4 other leaf := by
  rw [nextTable, bind_of_ok (readWord_run _ _)] at run
  split at run
  · rename_i missing
    have absent : presentEntry machine.mem table index = none := if_pos missing
    obtain ⟨page, allocated, alloc, write⟩ := bind_eq_ok.mp run
    obtain ⟨granted, rfl⟩ := uefiAllocPages_ok.mp alloc
    have target : final = PageTree.linked fw machine table index page ∧ result = page := by
      simp only [bind_run, writeWord_run, pure_run, EStateM.Result.ok.injEq] at write
      rw [← write.1, ← write.2, Nat.or_assoc]
      exact ⟨rfl, rfl⟩
    obtain ⟨rfl, rfl⟩ := target
    refine ⟨tree.link short ends bounded inner absent granted, ?_,
      tree.leafEntry_linked short ends bounded inner absent granted⟩
    rw [tree.tableAt_linked short ends bounded inner absent granted _ (by simp; omega), if_pos rfl]
  · rename_i found
    simp only [pure_run, EStateM.Result.ok.injEq] at run
    obtain ⟨rfl, rfl⟩ := run
    refine ⟨Grows.refl tree, ?_, fun _ _ _ _ => rfl⟩
    rw [tableAt, follow_concat_eq_some]
    refine ⟨table, ends, ?_⟩
    rw [links_eq_of_inner bounded inner, presentEntry_eq_some rfl found]
    rfl

/-- A level of `loader_paging_map` stops only when the firmware refuses a page. -/
theorem nextTable_error {table index : Nat} {reason : Halt}
    (run : nextTable fw table index machine = .error reason final) :
    reason = .exit ∧ fw.allocatePages final 1 = none := by
  rw [nextTable, bind_of_ok (readWord_run _ _)] at run
  split at run
  · rcases bind_eq_error.mp run with alloc | ⟨page, allocated, -, write⟩
    · obtain ⟨refused, exits, rfl⟩ := uefiAllocPages_error.mp alloc
      exact ⟨exits, refused⟩
    · simp only [bind_run, writeWord_run, pure_run, reduceCtorEq] at write
  · simp at run

theorem loaderPagingMap_error {physical virtual flags : Nat} {reason : Halt}
    (run : loaderPagingMap fw pml4 physical virtual flags machine = .error reason final) :
    reason = .exit ∧ fw.allocatePages final 1 = none := by
  rw [loaderPagingMap] at run
  rcases bind_eq_error.mp run with first | ⟨pml3, _, -, run⟩
  · exact nextTable_error first
  rcases bind_eq_error.mp run with second | ⟨pml2, _, -, run⟩
  · exact nextTable_error second
  rcases bind_eq_error.mp run with third | ⟨pml1, _, -, run⟩
  · exact nextTable_error third
  · simp at run

/-- **`loader_paging_map` maps one page of the address space.** -/
theorem loaderPagingMap_refines {space : AddressSpace} (refines : Refines machine pml4 space)
    {virtual : Nat} (bounded : virtual < 2 ^ 64) (inner : slice virtual 39 ≠ selfMapSlot)
    (mapping : Mapping)
    (run : loaderPagingMap fw pml4 mapping.frame virtual mapping.flags machine = .ok () final) :
    Refines final pml4 (space.map (pageOf virtual) mapping) ∧ Grows pml4 machine final := by
  have digit : ∀ low, slice virtual low < 512 := fun low => Nat.mod_lt _ (by decide)
  rw [loaderPagingMap, mmVirtualIndices_eq bounded] at run
  obtain ⟨pml3, second, run3, run⟩ := bind_eq_ok.mp run
  obtain ⟨grows3, ends3, leaves3⟩ := nextTable_ok refines.tree (by simp) follow_nil (digit 39)
    (fun both => inner both.2) run3
  obtain ⟨pml2, third, run2, run⟩ := bind_eq_ok.mp run
  have notRoot3 := grows3.tree.ne_root (by simp) ends3 (by simp)
  obtain ⟨grows2, ends2, leaves2⟩ := nextTable_ok grows3.tree (by simp) ends3 (digit 30)
    (fun both => notRoot3 both.1) run2
  obtain ⟨pml1, fourth, run1, run⟩ := bind_eq_ok.mp run
  have notRoot2 := grows2.tree.ne_root (by simp) ends2 (by simp)
  obtain ⟨grows1, ends1, leaves1⟩ := nextTable_ok grows2.tree (by simp) ends2 (digit 21)
    (fun both => notRoot2 both.1) run1
  obtain rfl : PageTree.written fourth pml1 (slice virtual 12) mapping.entry = final := by
    simpa [PageTree.written, Mapping.entry] using run
  have fits : mapping.entry < 2 ^ 64 := entry_lt mapping.isPage mapping.valid
  have long : (([] ++ [slice virtual 39] ++ [slice virtual 30]) ++ [slice virtual 21]).length = 3 :=
    rfl
  have written := grows1.tree.writeLeaf long ends1 (digit 12) fits
  refine ⟨⟨written.tree, ?_⟩, ((grows3.trans grows2).trans grows1).trans written⟩
  intro page innerPage
  rw [grows1.tree.leafEntry_written long ends1 (digit 12) fits
    (entry_present mapping.isPage mapping.valid) _ _ rfl (Nat.mod_lt _ (by decide)),
    leaves1 _ _ rfl (Nat.mod_lt _ (by decide)), leaves2 _ _ rfl (Nat.mod_lt _ (by decide)),
    leaves3 _ _ rfl (Nat.mod_lt _ (by decide)), refines.leaf page innerPage]
  obtain ⟨path, leaf⟩ := slices_eq_pagePath virtual
  simp only [List.nil_append, List.cons_append, path, leaf]
  by_cases here : page = pageOf virtual
  · subst here
    simp [AddressSpace.map]
  · rw [if_neg fun both => here (page_eq_of_path both.1 both.2), AddressSpace.map,
      Function.update_of_ne here]

/-- A page with nothing but the self-map is an empty address space. -/
theorem Refines.of_root (isPage : IsPage pml4) (owned : tableExtent pml4 ∈ machine.allocated)
    (selfMap : entryAt machine.mem pml4 selfMapSlot = pml4 ||| linkFlags)
    (noLinks : ∀ index, links machine.mem pml4 pml4 index = none) :
    Refines machine pml4 fun _ => none := by
  have onlyRoot : ∀ {path table}, tableAt machine.mem pml4 path = some table →
      path = [] ∧ table = pml4 := follow_of_no_links noLinks
  constructor
  · constructor
    · exact selfMap
    · intro first second table _ _ firstEnds secondEnds
      rw [(onlyRoot firstEnds).1, (onlyRoot secondEnds).1]
    · intro path table _ ends
      rw [(onlyRoot ends).2]
      exact isPage
    · intro path table _ ends
      rw [(onlyRoot ends).2]
      exact owned
    · intro path table index target _ ends isLink
      obtain ⟨-, rfl⟩ := onlyRoot ends
      rw [noLinks] at isLink
      cases isLink
  · intro page _
    rw [leafEntry]
    cases ends : tableAt machine.mem pml4 (pagePath page) with
    | none => rfl
    | some table =>
        have empty := (onlyRoot ends).1
        simp [pagePath] at empty

/-- **`loader_paging_setup` makes the empty address space.** -/
theorem loaderPagingSetup_refines (run : loaderPagingSetup fw machine = .ok pml4 final) :
    Refines final pml4 fun _ => none := by
  obtain ⟨page, allocated, alloc, write⟩ := bind_eq_ok.mp run
  obtain ⟨granted, rfl⟩ := uefiAllocPages_ok.mp alloc
  have isPage := PageTree.isPage_of_granted granted
  have shape : final = { machine.withPages fw page 1 with
      mem := (machine.mem.fill page pageSize 0).store64 (page + 8 * selfMapSlot)
        (page ||| linkFlags) } ∧ pml4 = page := by
    simp only [bind_run, writeWord_run, pure_run, EStateM.Result.ok.injEq] at write
    rw [← write.1, ← write.2, Nat.or_assoc, Nat.or_comm pageWrite pagePresent]
    exact ⟨rfl, rfl⟩
  obtain ⟨rfl, rfl⟩ := shape
  -- the top level is zero but for the self-map, so nothing is linked
  have entries : ∀ index, index < 512 →
      entryAt ((machine.mem.fill pml4 pageSize 0).store64 (pml4 + 8 * selfMapSlot)
        (pml4 ||| linkFlags)) pml4 index =
          if index = selfMapSlot then pml4 ||| linkFlags else 0 := by
    intro index bounded
    rw [entryAt_writeWord isPage.1 isPage.1 bounded (by decide) (entry_lt isPage linkFlags_valid),
      entryAt_fill isPage.1 isPage.1 bounded, if_pos rfl]
    simp only [true_and]
  have noLinks : ∀ index, links ((machine.mem.fill pml4 pageSize 0).store64
      (pml4 + 8 * selfMapSlot) (pml4 ||| linkFlags)) pml4 pml4 index = none := by
    intro index
    unfold links
    split
    · rename_i valid
      rw [presentEntry_eq_none_of_zero]
      · rfl
      · rw [entries index valid.1, if_neg fun same => valid.2 ⟨rfl, same⟩]
    · rfl
  refine Refines.of_root isPage ?_ ?_ noLinks
  · simp [Machine.withPages, tableExtent]
  · rw [entries selfMapSlot (by decide), if_pos rfl]

/-! ## Sequences of calls -/

/-- The arguments of a call of `loader_paging_map`. -/
structure MapCall where
  physical : Nat
  virtual : Nat
  flags : Nat
deriving Repr, DecidableEq

/-- What a walk finds at the page of a call. -/
def MapCall.translation (call : MapCall) : Translation where
  frame := call.physical
  flags := call.flags
  writable := call.flags &&& pageWrite != 0
  noExecute := call.flags &&& pageNx != 0

/-- The calls that map a page: a 64-bit address outside the self-map, a page of physical
memory and flags of a present entry. -/
structure MapCall.Mappable (call : MapCall) : Prop where
  bounded : call.virtual < 2 ^ 64
  inner : slice call.virtual 39 ≠ selfMapSlot
  isPage : IsPage call.physical
  flags : ValidFlags call.flags

/-- The last call for a page, as far as the tables see pages. -/
def lastFor (calls : List MapCall) (page : Nat) : Option MapCall :=
  calls.reverse.find? fun call => pageOf call.virtual = page

theorem lastFor_concat (calls : List MapCall) (call : MapCall) (page : Nat) :
    lastFor (calls ++ [call]) page =
      if pageOf call.virtual = page then some call else lastFor calls page := by
  rw [lastFor, List.reverse_append, List.reverse_singleton, List.singleton_append,
    List.find?_cons]
  by_cases here : pageOf call.virtual = page
  · simp [here]
  · simp [here, lastFor]

/-- The last call of two sequences is the last of the second, if it has one. -/
theorem lastFor_append (first second : List MapCall) (page : Nat) :
    lastFor (first ++ second) page = (lastFor second page).or (lastFor first page) := by
  rw [lastFor, List.reverse_append, List.find?_append]
  rfl

theorem lastFor_eq_none {calls : List MapCall} {page : Nat} :
    lastFor calls page = none ↔ ∀ call ∈ calls, pageOf call.virtual ≠ page := by
  simp [lastFor]

theorem lastFor_mem {calls : List MapCall} {page : Nat} {call : MapCall}
    (found : lastFor calls page = some call) : call ∈ calls ∧ pageOf call.virtual = page := by
  refine ⟨List.mem_reverse.mp (List.mem_of_find?_eq_some found), ?_⟩
  simpa using List.find?_some found

/-- The last call for a page is its only call. -/
theorem lastFor_eq_some {calls : List MapCall} {page : Nat} {call : MapCall} (member : call ∈ calls)
    (here : pageOf call.virtual = page)
    (only : ∀ other ∈ calls, pageOf other.virtual = page → other = call) :
    lastFor calls page = some call := by
  cases found : lastFor calls page with
  | none => exact absurd here (lastFor_eq_none.mp found call member)
  | some other =>
      obtain ⟨otherMember, otherHere⟩ := lastFor_mem found
      rw [only other otherMember otherHere]

/-- The mapping that a call requests. -/
def MapCall.mapping (call : MapCall) (mappable : call.Mappable) : Mapping :=
  ⟨call.physical, call.flags, mappable.isPage, mappable.flags⟩

/-- The requests of a sequence of calls, in order. -/
def MapCall.requests (calls : List MapCall) (mappable : ∀ call ∈ calls, call.Mappable) :
    List (Nat × Mapping) :=
  calls.attach.map fun call => (pageOf call.1.virtual, call.1.mapping (mappable call.1 call.2))

/-- The address space of a sequence of calls gives each page what the last call for it asked
for. -/
theorem mapAll_requests {calls : List MapCall} (mappable : ∀ call ∈ calls, call.Mappable)
    (space : AddressSpace) (page : Nat) :
    (space.mapAll (MapCall.requests calls mappable) page).map Mapping.translation =
      ((lastFor calls page).map MapCall.translation).or ((space page).map Mapping.translation) := by
  induction calls using List.reverseRecOn with
  | nil => rfl
  | append_singleton calls call ih =>
      have split : MapCall.requests (calls ++ [call]) mappable =
          MapCall.requests calls (fun other member => mappable other (by simp [member])) ++
            [(pageOf call.virtual, call.mapping (mappable call (by simp)))] := by
        simp [MapCall.requests, List.attach_append, Function.comp_def]
      rw [split, AddressSpace.mapAll_concat, lastFor_concat, AddressSpace.map]
      by_cases here : pageOf call.virtual = page
      · subst here
        simp only [Function.update_self, if_true, Option.map_some, Option.some_or]
        rfl
      · rw [if_neg here, Function.update_of_ne (Ne.symm here)]
        exact ih _

/-- The loop over a sequence of calls. -/
def loaderPagingMapAll (fw : Firmware) (pml4 : Nat) (calls : List MapCall) : Boot Unit :=
  calls.forM fun call => loaderPagingMap fw pml4 call.physical call.virtual call.flags

/-- Calls map the pages of an address space one after the other. -/
theorem loaderPagingMapAll_refines {calls : List MapCall} :
    ∀ {machine : Machine} {space : AddressSpace}, Refines machine pml4 space →
      ∀ mappable : ∀ call ∈ calls, call.Mappable,
        loaderPagingMapAll fw pml4 calls machine = .ok () final →
          Refines final pml4 (space.mapAll (MapCall.requests calls mappable)) ∧
            Grows pml4 machine final := by
  induction calls with
  | nil =>
      intro machine space refines mappable run
      simp only [loaderPagingMapAll, List.forM_eq_forM, List.forM_nil, pure_run,
        EStateM.Result.ok.injEq, true_and] at run
      subst run
      exact ⟨refines, Grows.refl refines.tree⟩
  | cons call calls ih =>
      intro machine space refines mappable run
      simp only [loaderPagingMapAll, List.forM_eq_forM, List.forM_cons] at run
      obtain ⟨⟨⟩, middle, first, rest⟩ := bind_eq_ok.mp run
      have here := mappable call (by simp)
      obtain ⟨next, grows⟩ :=
        loaderPagingMap_refines refines here.bounded here.inner (call.mapping here) first
      obtain ⟨last, growsRest⟩ := ih next (fun later member => mappable later (by simp [member])) rest
      refine ⟨?_, grows.trans growsRest⟩
      simpa [MapCall.requests, AddressSpace.mapAll, Function.comp_def] using last

/-- The tables of a machine hold some address space. -/
def HoldsTables (machine : Machine) (pml4 : Nat) : Prop :=
  ∃ space, Refines machine pml4 space

theorem HoldsTables.tree {machine : Machine} (holds : HoldsTables machine pml4) :
    PageTree machine pml4 :=
  holds.elim fun _ refines => refines.tree

/-- A change outside the tables keeps the address space. -/
theorem Refines.of_agree {other : Machine} {space : AddressSpace}
    (refines : Refines machine pml4 space)
    (agree : ∀ path table, path.length ≤ 3 → tableAt machine.mem pml4 path = some table →
      ∀ address, (tableExtent table).Contains address → other.mem address = machine.mem address)
    (allocated : ∀ extent ∈ machine.allocated, extent ∈ other.allocated) :
    Refines other pml4 space := by
  refine ⟨refines.tree.of_agree agree allocated, fun page inner => ?_⟩
  rw [leafEntry_of_agree agree _ _ (by simp [pagePath]) (Nat.mod_lt _ (by decide)),
    refines.leaf page inner]

/-- A change outside the tables keeps every translation. -/
theorem HoldsTables.of_agree {other : Machine} (holds : HoldsTables machine pml4)
    (agree : ∀ path table, path.length ≤ 3 → tableAt machine.mem pml4 path = some table →
      ∀ address, (tableExtent table).Contains address → other.mem address = machine.mem address)
    (allocated : ∀ extent ∈ machine.allocated, extent ∈ other.allocated) :
    HoldsTables other pml4 ∧ ∀ v, slice v 39 ≠ selfMapSlot →
      walk other.mem pml4 v = walk machine.mem pml4 v := by
  obtain ⟨space, refines⟩ := holds
  have after := refines.of_agree agree allocated
  refine ⟨⟨space, after⟩, fun v inner => ?_⟩
  rw [after.walk_eq inner, refines.walk_eq inner]

/-- **After a sequence of calls the walk finds the last call for a page, and what it found
before where there is none.** -/
theorem loaderPagingMapAll_walk {calls : List MapCall} (holds : HoldsTables machine pml4)
    (mappable : ∀ call ∈ calls, call.Mappable)
    (run : loaderPagingMapAll fw pml4 calls machine = .ok () final) :
    HoldsTables final pml4 ∧ Grows pml4 machine final ∧
      ∀ v, slice v 39 ≠ selfMapSlot →
        walk final.mem pml4 v =
          ((lastFor calls (pageOf v)).map MapCall.translation).or (walk machine.mem pml4 v) := by
  obtain ⟨space, refines⟩ := holds
  obtain ⟨after, grows⟩ := loaderPagingMapAll_refines refines mappable run
  refine ⟨⟨_, after⟩, grows, ?_⟩
  intro v inner
  rw [after.walk_eq inner, refines.walk_eq inner, mapAll_requests]

theorem loaderPagingMapAll_error {calls : List MapCall} {reason : Halt}
    (run : loaderPagingMapAll fw pml4 calls machine = .error reason final) :
    reason = .exit ∧ fw.allocatePages final 1 = none := by
  obtain ⟨call, -, before, stopped⟩ := forM_error run
  exact loaderPagingMap_error stopped

/-! ## From an empty top level -/

/-- The calls the tables are meant for: a canonical address outside the self-map, an aligned
frame below the end of physical memory, and flags of a present entry. -/
structure MapCall.Valid (call : MapCall) : Prop where
  canonical : Canonical call.virtual
  inner : slice call.virtual 39 ≠ selfMapSlot
  aligned : call.physical % pageSize = 0
  below : call.physical < physicalEnd
  flags : ValidFlags call.flags

theorem MapCall.Valid.mappable {call : MapCall} (valid : call.Valid) : call.Mappable := by
  have canonical := valid.canonical
  have aligned := valid.aligned
  have below := valid.below
  simp only [Canonical] at canonical
  refine ⟨by omega, valid.inner, ⟨aligned, ?_⟩, valid.flags⟩
  simp only [pageSize, physicalEnd] at *
  omega

/-- `loader_paging_setup`, then the calls in order. -/
def loaderPagingCalls (fw : Firmware) (calls : List MapCall) : Boot Nat := do
  let pml4 ← loaderPagingSetup fw
  loaderPagingMapAll fw pml4 calls
  return pml4

/-- The last call whose address lies in the page of the given address. -/
def lastCall (calls : List MapCall) (v : Nat) : Option MapCall :=
  calls.reverse.find? fun call => call.virtual / pageSize = v / pageSize

/-- For canonical addresses the tables see the pages as they are. -/
theorem lastFor_eq_lastCall {calls : List MapCall} (valid : ∀ call ∈ calls, call.Valid) {v : Nat}
    (canonical : Canonical v) : lastFor calls (pageOf v) = lastCall calls v := by
  induction calls using List.reverseRecOn with
  | nil => rfl
  | append_singleton calls call ih =>
      have same := pageOf_eq_iff (valid call (by simp)).canonical canonical
      rw [lastFor_concat, ih fun other member => valid other (by simp [member]), lastCall,
        lastCall, List.reverse_append, List.reverse_singleton, List.singleton_append,
        List.find?_cons]
      by_cases here : pageOf call.virtual = pageOf v
      · simp [here, same.mp here]
      · have elsewhere : ¬ call.virtual / pageSize = v / pageSize := fun equal =>
          here (same.mpr equal)
        simp [here, elsewhere]

/-- The table that the processor reaches along a path of indices. -/
def reachedTable (mem : Memory) (pml4 : Nat) (path : List Nat) : Option Nat :=
  follow (fun table index => (presentEntry mem table index).map frameOf) pml4 path

/-- A path of table indices that does not start at the self-map. -/
def InnerPath (path : List Nat) : Prop :=
  path.length ≤ 3 ∧ (∀ index ∈ path, index < 512) ∧ path.head? ≠ some selfMapSlot

/-- Away from the self-map the processor reaches the tables of the tree. -/
theorem PageTree.reachedTable_eq {machine : Machine} {pml4 : Nat} (tree : PageTree machine pml4) :
    ∀ {path : List Nat}, InnerPath path →
      reachedTable machine.mem pml4 path = tableAt machine.mem pml4 path := by
  intro path
  induction path using List.reverseRecOn with
  | nil => intro _; rfl
  | append_singleton path index ih =>
      rintro ⟨short, bounded, head⟩
      have inner : InnerPath path := by
        refine ⟨by simp at short; omega, fun found member => bounded found (by simp [member]), ?_⟩
        cases path with
        | nil => simp
        | cons => simpa using head
      rw [reachedTable, tableAt, follow_concat, follow_concat]
      have before := ih inner
      rw [reachedTable, tableAt] at before
      rw [before]
      cases ends : follow (links machine.mem pml4) pml4 path with
      | none => rfl
      | some table =>
          have notSelf : ¬ (table = pml4 ∧ index = selfMapSlot) := by
            rintro ⟨rfl, rfl⟩
            have root : path = [] := by
              by_contra long
              exact tree.ne_root inner.1 ends long rfl
            rw [root] at head
            exact head rfl
          exact (links_eq_of_inner (bounded index (by simp)) notSelf).symm

/-- A sequence of calls stops only when the firmware refuses a page. -/
theorem loaderPagingCalls_error {calls : List MapCall} {reason : Halt}
    (run : loaderPagingCalls fw calls machine = .error reason final) :
    fw.allocatePages final 1 = none := by
  rcases bind_eq_error.mp run with setup | ⟨pml4, middle, -, rest⟩
  · rcases bind_eq_error.mp setup with alloc | ⟨page, allocated, -, write⟩
    · obtain ⟨refused, -, rfl⟩ := uefiAllocPages_error.mp alloc
      exact refused
    · simp only [bind_run, writeWord_run, pure_run, reduceCtorEq] at write
  · rcases bind_eq_error.mp rest with loop | ⟨⟨⟩, _, -, done⟩
    · exact (loaderPagingMapAll_error loop).2
    · simp at done

/-- **Page-table refinement.** Start from `loader_paging_setup` and make any sequence of
valid calls of `loader_paging_map`, with a firmware that never refuses a page. The calls
return. The walk of every canonical address outside the self-map finds the frame and the
flags of the last call for its page, with the permissions of those flags, and nothing when
there is no such call. Slot 510 still points to the top level, and no table is reached by
two different paths outside the self-map. -/
theorem loaderPaging_refines_calls (fw : Firmware) (machine : Machine) (calls : List MapCall)
    (valid : ∀ call ∈ calls, call.Valid)
    (granted : ∀ reason stopped, loaderPagingCalls fw calls machine = .error reason stopped →
      fw.allocatePages stopped 1 ≠ none) :
    ∃ pml4 final, loaderPagingCalls fw calls machine = .ok pml4 final ∧
      (∀ v, Canonical v → slice v 39 ≠ selfMapSlot →
        walk final.mem pml4 v = (lastCall calls v).map MapCall.translation) ∧
      entryAt final.mem pml4 selfMapSlot = pml4 ||| pageWrite ||| pagePresent ∧
      ∀ first second table, InnerPath first → InnerPath second →
        reachedTable final.mem pml4 first = some table →
          reachedTable final.mem pml4 second = some table → first = second := by
  obtain ⟨pml4, final, run⟩ := exists_ok_of_not_error fun reason stopped stops =>
    granted reason stopped stops (loaderPagingCalls_error stops)
  refine ⟨pml4, final, run, ?_⟩
  obtain ⟨root, middle, setup, rest⟩ := bind_eq_ok.mp run
  obtain ⟨⟨⟩, last, loop, done⟩ := bind_eq_ok.mp rest
  obtain ⟨rfl, rfl⟩ : root = pml4 ∧ last = final := by simpa using done
  have empty := loaderPagingSetup_refines setup
  obtain ⟨refines, -⟩ := loaderPagingMapAll_refines empty
    (fun call member => (valid call member).mappable) loop
  refine ⟨?_, ?_, ?_⟩
  · intro v canonical inner
    rw [refines.walk_eq inner, mapAll_requests, lastFor_eq_lastCall valid canonical]
    simp
  · rw [refines.tree.selfMap, linkFlags, Nat.or_comm pagePresent pageWrite, Nat.or_assoc]
  · intro first second table firstInner secondInner firstEnds secondEnds
    rw [refines.tree.reachedTable_eq firstInner] at firstEnds
    rw [refines.tree.reachedTable_eq secondInner] at secondEnds
    exact refines.tree.unshared first second table firstInner.1 secondInner.1 firstEnds secondEnds

/-- Two calls for one page, with an upper-half page between them. -/
def sampleCalls : List MapCall :=
  [⟨0x5000, 0x400000, pagePresent⟩,
    ⟨0x6000, 0xFFFFFE0000000000, pagePresent ||| pageWrite ||| pageNx⟩,
    ⟨0x7000, 0x400FFF, pagePresent ||| pageWrite⟩]

theorem sampleCalls_valid : ∀ call ∈ sampleCalls, call.Valid := by
  intro call member
  simp only [sampleCalls, List.mem_cons, List.not_mem_nil, or_false] at member
  rcases member with rfl | rfl | rfl <;> exact ⟨by decide, by decide, by decide, by decide, by decide⟩

theorem loaderPaging_refines_sampleCalls :
    ∃ pml4 final,
      loaderPagingCalls (bumpFirmware [] (by decide)) sampleCalls freshMachine = .ok pml4 final ∧
        walk final.mem pml4 0x400123 = some ⟨0x7000, 3, true, false⟩ := by
  have runs :
      returned (loaderPagingCalls (bumpFirmware [] (by decide)) sampleCalls freshMachine) = true := by
    decide +kernel
  obtain ⟨pml4, final, run, walks, -⟩ := loaderPaging_refines_calls
    (bumpFirmware [] (by decide)) freshMachine sampleCalls sampleCalls_valid fun reason stopped stops => by rw [stops] at runs; cases runs
  refine ⟨pml4, final, run, ?_⟩
  rw [walks 0x400123 (by decide) (by decide)]
  decide

end VineyardLoader
