import VineyardLoader.Loader.Confinement

/-!
# The slot of the self-map

`loader_paging_setup` makes slot 510 of the top level point to the top level itself, so that the
kernel finds its page tables in memory. An address in the slot goes through the top level once for
every leading index 510, and ends one level higher for each. What is left of its indices is the path
of a table (`selfMapPath`), and the walk finds exactly this table, writable
(`PageTree.walk_selfMap`).

So at the jump the slot holds the page tables and nothing else: every table is found there, on one
page, and every page of the slot that is mapped is a table that was granted in the run
(`loaderKernel_selfMap`).
-/

set_option autoImplicit false

namespace VineyardLoader

variable {fw : Firmware} {platform : Platform} {start machine final : Machine} {pml4 : Nat}

/-! ## Paths through the slot -/

/-- The path of the table that an entry of the table at a path leads to. -/
def entryPath (path : List Nat) (index : Nat) : List Nat :=
  if path = [] ∧ index = selfMapSlot then [] else path ++ [index]

/-- The path of the table that an address in the slot leads to. -/
def selfMapPath (v : Nat) : List Nat :=
  entryPath (entryPath (entryPath [] (slice v 30)) (slice v 21)) (slice v 12)

theorem entryPath_length (path : List Nat) (index : Nat) :
    (entryPath path index).length ≤ path.length + 1 := by
  rw [entryPath]
  split
  · exact Nat.zero_le _
  · exact (List.length_append ..).le

/-- The address whose last four indices are a path of at most three and the slot before it. -/
def selfMapAddress (path : List Nat) : Nat :=
  0xFFFF000000000000 +
    (List.replicate (4 - path.length) selfMapSlot ++ path).foldl
      (fun above index => above * 512 + index) 0 * pageSize

/-- What the walk finds at a table. -/
def tableTranslation (table : Nat) : Translation := ⟨table, linkFlags, true, false⟩

theorem combine_of_links {first second third fourth : Nat} (isFirst : IsPage first)
    (isSecond : IsPage second) (isThird : IsPage third) (isFourth : IsPage fourth) :
    combine [first ||| linkFlags, second ||| linkFlags, third ||| linkFlags]
      (fourth ||| linkFlags) = tableTranslation fourth := by
  rw [PageTree.combine_links isFirst isSecond isThird]
  have entry := Mapping.combine_entry ⟨fourth, linkFlags, isFourth, linkFlags_valid⟩
  have flags : (linkFlags &&& pageWrite != 0) = true ∧ (linkFlags &&& pageNx != 0) = false := by
    decide
  rw [Mapping.translation, flags.1, flags.2] at entry
  exact entry

namespace PageTree

variable (tree : PageTree machine pml4)
include tree

/-- One level of the walk through a table that is not a leaf. -/
theorem bind_entryPath {α : Type} {path : List Nat} {table index : Nat} (short : path.length < 3)
    (ends : tableAt machine.mem pml4 path = some table) (bounded : index < 512)
    (rest : Nat → Option α) :
    (presentEntry machine.mem table index).bind rest =
      (tableAt machine.mem pml4 (entryPath path index)).bind fun target =>
        rest (target ||| linkFlags) := by
  rw [entryPath]
  split
  · rename_i slot
    obtain ⟨rfl, rfl⟩ := slot
    obtain rfl : pml4 = table := Option.some.inj ends
    rw [presentEntry_eq_some tree.selfMap (entry_present tree.isPage_root linkFlags_valid)]
    rfl
  · rename_i inner
    exact tree.bind_presentEntry short ends bounded
      (tree.not_selfMap (by omega) ends fun empty slot => inner ⟨empty, slot⟩) rest

omit tree in
/-- Behind a path that ends nowhere there is no table. -/
theorem tableAt_entryPath_none {path : List Nat} (gone : tableAt machine.mem pml4 path = none)
    (index : Nat) : tableAt machine.mem pml4 (entryPath path index) = none := by
  rw [entryPath]
  split
  · rename_i slot
    rwa [slot.1] at gone
  · exact follow_append_eq_none gone [index]

/-- **An address in the slot of the self-map leads to the table at its path**, and to nothing if
there is no such table. -/
theorem walk_selfMap {v : Nat} (slot : slice v 39 = selfMapSlot) :
    walk machine.mem pml4 v =
      (tableAt machine.mem pml4 (selfMapPath v)).map tableTranslation := by
  have bounded : ∀ low, slice v low < 512 := fun low => Nat.mod_lt _ (by decide)
  have root : tableAt machine.mem pml4 [] = some pml4 := follow_nil
  have self : entryPath [] selfMapSlot = [] := rfl
  have firstShort := entryPath_length [] (slice v 30)
  have secondShort := entryPath_length (entryPath [] (slice v 30)) (slice v 21)
  have thirdShort := entryPath_length (entryPath (entryPath [] (slice v 30)) (slice v 21))
    (slice v 12)
  rw [List.length_nil] at firstShort
  simp only [walk, Option.bind_eq_bind, Option.pure_def, selfMapPath]
  rw [tree.bind_entryPath (by simp) root (bounded 39), slot, self, root, Option.bind_some,
    tree.frameOf_link (by simp) root, tree.bind_entryPath (by simp) root (bounded 30)]
  cases first : tableAt machine.mem pml4 (entryPath [] (slice v 30)) with
  | none => rw [tableAt_entryPath_none (tableAt_entryPath_none first _)]; rfl
  | some pml3 =>
      rw [Option.bind_some, tree.frameOf_link (by omega) first,
        tree.bind_entryPath (by omega) first (bounded 21)]
      cases second : tableAt machine.mem pml4
          (entryPath (entryPath [] (slice v 30)) (slice v 21)) with
      | none => rw [tableAt_entryPath_none second]; rfl
      | some pml2 =>
          rw [Option.bind_some, tree.frameOf_link (by omega) second,
            tree.bind_entryPath (by omega) second (bounded 12)]
          cases third : tableAt machine.mem pml4 (entryPath (entryPath (entryPath []
              (slice v 30)) (slice v 21)) (slice v 12)) with
          | none => rfl
          | some pml1 =>
              rw [Option.bind_some, Option.map_some, combine_of_links tree.isPage_root
                (tree.isPage _ _ (by omega) first) (tree.isPage _ _ (by omega) second)
                (tree.isPage _ _ (by omega) third)]

end PageTree

/-! ## Addresses of the slot -/

/-- A list is what it starts with of one value, and the rest. -/
theorem replicate_append_dropWhile (value : Nat) (list : List Nat) :
    List.replicate (list.length - (list.dropWhile (· = value)).length) value ++
      list.dropWhile (· = value) = list := by
  induction list with
  | nil => rfl
  | cons head tail ih =>
      by_cases here : head = value
      · have shorter := (List.dropWhile_suffix (l := tail) (fun index => decide (index = value))).length_le
        rw [List.dropWhile_cons_of_pos (by simpa using here), List.length_cons,
          Nat.succ_sub shorter, List.replicate_succ, List.cons_append, ih, here]
      · rw [List.dropWhile_cons_of_neg (by simpa using here), Nat.sub_self]
        rfl

theorem dropWhile_replicate_append {value : Nat} {list : List Nat} (count : Nat)
    (other : ∀ rest, list ≠ value :: rest) :
    (List.replicate count value ++ list).dropWhile (· = value) = list := by
  induction count with
  | zero =>
      cases list with
      | nil => rfl
      | cons head tail =>
          have differs : head ≠ value := fun same => other tail (same ▸ rfl)
          exact List.dropWhile_cons_of_neg (by simpa using differs)
  | succ count ih =>
      rw [List.replicate_succ, List.cons_append, List.dropWhile_cons_of_pos (by simp), ih]

/-- The path is what is left of the indices behind the leading ones for the slot. -/
theorem selfMapPath_eq (v : Nat) :
    selfMapPath v = [slice v 30, slice v 21, slice v 12].dropWhile (· = selfMapSlot) := by
  unfold selfMapPath
  by_cases third : slice v 30 = selfMapSlot
  · by_cases second : slice v 21 = selfMapSlot
    · by_cases last : slice v 12 = selfMapSlot
      · simp [entryPath, third, second, last]
      · simp [entryPath, third, second, last]
    · simp [entryPath, third, second]
  · simp [entryPath, third]

/-- Addresses of the slot with one path lie in one page. -/
theorem pageOf_eq_of_selfMapPath {v w : Nat} (slot : slice v 39 = selfMapSlot)
    (other : slice w 39 = selfMapSlot) (same : selfMapPath v = selfMapPath w) :
    pageOf v = pageOf w := by
  rw [selfMapPath_eq, selfMapPath_eq] at same
  have slices : [slice v 30, slice v 21, slice v 12] = [slice w 30, slice w 21, slice w 12] := by
    rw [← replicate_append_dropWhile selfMapSlot [slice v 30, slice v 21, slice v 12], same]
    exact replicate_append_dropWhile selfMapSlot [slice w 30, slice w 21, slice w 12]
  obtain ⟨firstV, thirdV, secondV, lastV⟩ := slices_eq v
  obtain ⟨firstW, thirdW, secondW, lastW⟩ := slices_eq w
  simp only [List.cons.injEq] at slices
  omega

/-- A path of tables has the indices of entries, and does not start with the slot. -/
theorem path_of_tableAt {path : List Nat} {table : Nat}
    (ends : tableAt machine.mem pml4 path = some table) :
    (∀ index ∈ path, index < 512) ∧ ∀ rest, path ≠ selfMapSlot :: rest := by
  constructor
  · induction path using List.reverseRecOn generalizing table with
    | nil => exact List.forall_mem_nil _
    | append_singleton path index ih =>
        obtain ⟨parent, above, isLink⟩ := follow_concat_eq_some.mp ends
        exact List.forall_mem_append.mpr ⟨ih above,
          List.forall_mem_singleton.mpr (index_lt_of_links isLink)⟩
  · rintro rest rfl
    have self : links machine.mem pml4 pml4 selfMapSlot = none :=
      if_neg fun inner => inner.2 ⟨rfl, rfl⟩
    rw [tableAt, follow, List.foldlM_cons, self] at ends
    cases ends

/-- The indices of the address for a path, and the address, as far as it is needed. -/
theorem selfMapAddress_slices {path : List Nat} {third second last : Nat} (short : path.length ≤ 3)
    (fill : List.replicate (3 - path.length) selfMapSlot ++ path = [third, second, last])
    (thirdBounded : third < 512) (secondBounded : second < 512) (lastBounded : last < 512) :
    Canonical (selfMapAddress path) ∧ selfMapAddress path % pageSize = 0 ∧
      slice (selfMapAddress path) 39 = selfMapSlot ∧ slice (selfMapAddress path) 30 = third ∧
      slice (selfMapAddress path) 21 = second ∧ slice (selfMapAddress path) 12 = last := by
  have digits : List.replicate (4 - path.length) selfMapSlot ++ path =
      [selfMapSlot, third, second, last] := by
    rw [show 4 - path.length = 3 - path.length + 1 by omega, List.replicate_succ, List.cons_append,
      fill]
  have address : selfMapAddress path =
      0xFFFF000000000000 + (((510 * 512 + third) * 512 + second) * 512 + last) * 4096 := by
    rw [selfMapAddress, digits]
    simp [selfMapSlot, pageSize]
  simp only [address, Canonical, slice, selfMapSlot, pageSize]
  omega

/-- The address for a path of tables is an address of the slot with this path. -/
theorem selfMapAddress_path {path : List Nat} (short : path.length ≤ 3)
    (bounded : ∀ index ∈ path, index < 512) (inner : ∀ rest, path ≠ selfMapSlot :: rest) :
    Canonical (selfMapAddress path) ∧ selfMapAddress path % pageSize = 0 ∧
      slice (selfMapAddress path) 39 = selfMapSlot ∧ selfMapPath (selfMapAddress path) = path := by
  have length : (List.replicate (3 - path.length) selfMapSlot ++ path).length = 3 := by
    rw [List.length_append, List.length_replicate]
    omega
  obtain ⟨third, second, last, fill⟩ := List.length_eq_three.mp length
  have all : ∀ index ∈ [third, second, last], index < 512 := by
    rw [← fill]
    refine List.forall_mem_append.mpr ⟨fun index member => ?_, bounded⟩
    rw [List.eq_of_mem_replicate member]
    decide
  obtain ⟨canonical, aligned, slot, thirdSlice, secondSlice, lastSlice⟩ :=
    selfMapAddress_slices short fill (all third (by simp)) (all second (by simp))
      (all last (by simp))
  refine ⟨canonical, aligned, slot, ?_⟩
  rw [selfMapPath_eq, thirdSlice, secondSlice, lastSlice, ← fill]
  exact dropWhile_replicate_append _ inner

theorem selfMapPath_length (v : Nat) : (selfMapPath v).length ≤ 3 := by
  rw [selfMapPath_eq]
  exact (List.dropWhile_suffix fun index => decide (index = selfMapSlot)).length_le

/-! ## The tables at the jump -/

/-- The slot of the self-map holds the page tables, and nothing else. -/
structure SelfMapped (start : Machine) (pml4 : Nat) (machine : Machine) : Prop where
  /-- What is mapped in the slot is a table that was granted since the start, and writable. -/
  tables : ∀ v found, slice v 39 = selfMapSlot → walk machine.mem pml4 v = some found →
    found.writable = true ∧
      (∃ path, path.length ≤ 3 ∧ tableAt machine.mem pml4 path = some found.frame) ∧
      ∃ grants, machine.allocated = grants ++ start.allocated ∧ tableExtent found.frame ∈ grants
  /-- Every table is found in the slot. -/
  reached : ∀ path table, path.length ≤ 3 → tableAt machine.mem pml4 path = some table →
    ∃ v, Canonical v ∧ slice v 39 = selfMapSlot ∧ ∀ offset, offset < pageSize →
      translate machine.mem pml4 (v + offset) = some (table + offset)
  /-- No table is found twice. -/
  once : ∀ v w first second, slice v 39 = selfMapSlot → slice w 39 = selfMapSlot →
    walk machine.mem pml4 v = some first → walk machine.mem pml4 w = some second →
      first.frame = second.frame → pageOf v = pageOf w

theorem Building.selfMapped (building : Building start pml4 [] machine) :
    SelfMapped start pml4 machine := by
  have tree := building.tree
  -- a walk in the slot ends at the table of its path
  have table : ∀ {v found}, slice v 39 = selfMapSlot → walk machine.mem pml4 v = some found →
      tableAt machine.mem pml4 (selfMapPath v) = some found.frame ∧ found.writable = true := by
    intro v found slot walks
    rw [tree.walk_selfMap slot, Option.map_eq_some_iff] at walks
    obtain ⟨table, ends, rfl⟩ := walks
    exact ⟨ends, rfl⟩
  constructor
  · intro v found slot walks
    obtain ⟨ends, writable⟩ := table slot walks
    obtain ⟨grants, confined, -, tables⟩ := building.confined
    exact ⟨writable, ⟨_, selfMapPath_length v, ends⟩, grants, confined.allocated,
      tables _ _ (selfMapPath_length v) ends⟩
  · intro path table short ends
    obtain ⟨bounded, inner⟩ := path_of_tableAt ends
    obtain ⟨canonical, aligned, slot, same⟩ := selfMapAddress_path short bounded inner
    refine ⟨selfMapAddress path, canonical, slot, fun offset inside => ?_⟩
    have slices : slice (selfMapAddress path + offset) 39 = slice (selfMapAddress path) 39 ∧
        slice (selfMapAddress path + offset) 30 = slice (selfMapAddress path) 30 ∧
        slice (selfMapAddress path + offset) 21 = slice (selfMapAddress path) 21 ∧
        slice (selfMapAddress path + offset) 12 = slice (selfMapAddress path) 12 := by
      simp only [pageSize] at aligned inside
      simp only [slice]
      omega
    obtain ⟨first, third, second, last⟩ := slices
    have here : selfMapPath (selfMapAddress path + offset) = path := by
      rw [selfMapPath, third, second, last]
      exact same
    have place : (selfMapAddress path + offset) % pageSize = offset := by
      simp only [pageSize] at aligned inside ⊢
      omega
    rw [translate, tree.walk_selfMap (first.trans slot), here, ends, place]
    rfl
  · intro v w first second slot other walksFirst walksSecond same
    obtain ⟨firstEnds, -⟩ := table slot walksFirst
    obtain ⟨secondEnds, -⟩ := table other walksSecond
    rw [← same] at secondEnds
    exact pageOf_eq_of_selfMapPath slot other (tree.unshared _ _ _ (selfMapPath_length v)
      (selfMapPath_length w) firstEnds secondEnds)

/-- **The kernel finds its page tables in the slot of the self-map**: all of them, each on one page,
and nothing else. No segment lies in that slot (`InnerTable`), the firmware's answers lie in the
lower half (`AnswersLow`), and its memory maps have room (`MapsFit`). -/
theorem loaderKernel_selfMap {jump : Jump} (low : AnswersLow fw platform) (maps : fw.MapsFit)
    (fits : machine.MapFits) (inner : InnerTable fw platform machine)
    (run : loaderKernel fw platform machine = .ok jump final) :
    SelfMapped machine jump.pml4 final :=
  ((loaderKernel_building low maps fits inner machine rfl).1 jump final run).selfMapped

theorem loaderKernel_selfMap_sample :
    ∃ jump final, loaderKernel imageFirmware samplePlatform freshMachine = .ok jump final ∧
      SelfMapped freshMachine jump.pml4 final := by
  have runs : returned (loaderKernel imageFirmware samplePlatform freshMachine) = true := by
    decide +kernel
  obtain ⟨jump, final, run⟩ := exists_ok_of_returned runs
  have fits : freshMachine.MapFits := by
    unfold Machine.MapFits
    decide
  exact ⟨jump, final, run, loaderKernel_selfMap placingFirmware_low imageFirmware_mapsFit fits
    imageFile_upper.innerTable run⟩

end VineyardLoader
