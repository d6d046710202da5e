import VineyardLoader.Foundation.LinkedTables
import VineyardLoader.Loader.Paging

/-!
# The page tables are a tree

The tables that the loader builds form a tree of depth three below the top level, apart
from slot 510, which points back to the top level. `PageTree` says so: no table ends two
paths, every table is a page of its own allocation, and every entry above the leaves has
the same flags, so it grants everything and forbids nothing.

What the tables map is the leaf entry at the end of a path of three indices (`leafEntry`),
and outside slot 510 the processor's walk finds exactly that entry (`walk_eq_leafEntry`).

The loader changes the tables in two ways. It links a new table into an empty entry
(`PageTree.link`) or it writes a leaf (`PageTree.writeLeaf`). Both keep the tree, and
`Grows` collects what they leave alone: paths stay, and memory that was allocated for
something else keeps its bytes.
-/

set_option autoImplicit false

namespace VineyardLoader

/-! ## Links -/

/-- The table that an entry of a table points to. The self-map is not a link. -/
def links (mem : Memory) (pml4 table index : Nat) : Option Nat :=
  if index < 512 ∧ ¬ (table = pml4 ∧ index = selfMapSlot) then
    (presentEntry mem table index).map frameOf
  else none

/-- The table at the end of a path from the top level. -/
def tableAt (mem : Memory) (pml4 : Nat) (path : List Nat) : Option Nat :=
  follow (links mem pml4) pml4 path

/-- The leaf entry at the end of a path of three indices. -/
def leafEntry (mem : Memory) (pml4 : Nat) (path : List Nat) (index : Nat) : Option Nat :=
  (tableAt mem pml4 path).bind fun table => presentEntry mem table index

theorem leafEntry_eq_none {mem : Memory} {pml4 : Nat} {path : List Nat}
    (gone : tableAt mem pml4 path = none) (rest : List Nat) (index : Nat) :
    leafEntry mem pml4 (path ++ rest) index = none := by
  rw [leafEntry, tableAt, follow_append_eq_none gone]
  rfl

theorem links_congr {first second : Memory} {pml4 table index : Nat}
    (same : entryAt first table index = entryAt second table index) :
    links first pml4 table index = links second pml4 table index := by
  simp only [links, presentEntry, same]

theorem links_eq_of_inner {mem : Memory} {pml4 table index : Nat} (bounded : index < 512)
    (inner : ¬ (table = pml4 ∧ index = selfMapSlot)) :
    links mem pml4 table index = (presentEntry mem table index).map frameOf :=
  if_pos ⟨bounded, inner⟩

theorem index_lt_of_links {mem : Memory} {pml4 table index target : Nat}
    (isLink : links mem pml4 table index = some target) : index < 512 := by
  rw [links] at isLink
  split at isLink
  · rename_i valid
    exact valid.1
  · cases isLink

/-- The range of a table. -/
def tableExtent (table : Nat) : Extent := ⟨table, pageSize⟩

theorem tableExtent_contains {table address : Nat} :
    (tableExtent table).Contains address ↔ table ≤ address ∧ address < table + 0x1000 := Iff.rfl

/-- The page tables below `pml4` are a tree with uniform flags above the leaves. -/
structure PageTree (machine : Machine) (pml4 : Nat) : Prop where
  /-- Slot 510 points to the top level. -/
  selfMap : entryAt machine.mem pml4 selfMapSlot = pml4 ||| linkFlags
  /-- No table ends two paths. -/
  unshared : Unshared (links machine.mem pml4) pml4 3
  /-- Every table is a page. -/
  isPage : ∀ path table, path.length ≤ 3 → tableAt machine.mem pml4 path = some table →
    IsPage table
  /-- Every table was allocated as one page. -/
  owned : ∀ path table, path.length ≤ 3 → tableAt machine.mem pml4 path = some table →
    tableExtent table ∈ machine.allocated
  /-- The entries above the leaves are a page with the link flags. -/
  linkEntry : ∀ path table index target, path.length < 3 →
    tableAt machine.mem pml4 path = some table →
      links machine.mem pml4 table index = some target →
        entryAt machine.mem table index = target ||| linkFlags

/-! ## Entries under writes -/

section Entries

variable {mem : Memory} {table index : Nat}

/-- Tables do not overlap, so a write of an entry changes that entry and no other. -/
theorem entryAt_writeWord {target slot value : Nat} (aligned : table % pageSize = 0)
    (targetAligned : target % pageSize = 0) (bounded : index < 512) (slotBounded : slot < 512)
    (fits : value < 2 ^ 64) :
    entryAt (mem.store64 (target + 8 * slot) value) table index =
      if table = target ∧ index = slot then value else entryAt mem table index := by
  simp only [pageSize] at aligned targetAligned
  unfold entryAt
  split
  · rename_i same
    obtain ⟨rfl, rfl⟩ := same
    exact mem.load64_store64 _ fits
  · rename_i other
    apply mem.load64_store64_of_disjoint
    by_cases here : table = target
    · have differs : index ≠ slot := fun same => other ⟨here, same⟩
      omega
    · omega

theorem entryAt_fill {target : Nat} (aligned : table % pageSize = 0)
    (targetAligned : target % pageSize = 0) (bounded : index < 512) :
    entryAt (mem.fill target pageSize 0) table index =
      if table = target then 0 else entryAt mem table index := by
  simp only [pageSize] at *
  unfold entryAt
  split
  · rename_i same
    subst same
    exact mem.load64_fill_zero (by omega) (by omega)
  · exact mem.loadLE_overwrite_of_disjoint (by omega)

theorem presentEntry_eq_none_of_zero (zero : entryAt mem table index = 0) :
    presentEntry mem table index = none := by
  simp [presentEntry, zero]

theorem presentEntry_eq_some {entry : Nat} (same : entryAt mem table index = entry)
    (present : entry &&& pagePresent ≠ 0) : presentEntry mem table index = some entry := by
  rw [presentEntry, same, if_neg present]

theorem presentEntry_congr {other : Memory}
    (same : entryAt mem table index = entryAt other table index) :
    presentEntry mem table index = presentEntry other table index := by
  rw [presentEntry, presentEntry, same]

end Entries

/-! ## The processor finds the leaf entries -/

namespace PageTree

variable {machine : Machine} {pml4 : Nat} (tree : PageTree machine pml4)
include tree

theorem isPage_root : IsPage pml4 := tree.isPage [] pml4 (by simp) follow_nil

/-- One level of the walk: a present entry is a link entry, and its frame is the next
table of the path. -/
theorem bind_presentEntry {α : Type} {path : List Nat} {table index : Nat}
    (short : path.length < 3) (ends : tableAt machine.mem pml4 path = some table)
    (bounded : index < 512) (inner : ¬ (table = pml4 ∧ index = selfMapSlot))
    (rest : Nat → Option α) :
    (presentEntry machine.mem table index).bind rest =
      (tableAt machine.mem pml4 (path ++ [index])).bind fun target =>
        rest (target ||| linkFlags) := by
  have next : tableAt machine.mem pml4 (path ++ [index]) =
      (presentEntry machine.mem table index).map frameOf := by
    rw [← links_eq_of_inner bounded inner, tableAt, follow_concat]
    rw [tableAt] at ends
    rw [ends]
    rfl
  rw [next]
  cases found : presentEntry machine.mem table index with
  | none => rfl
  | some entry =>
      have target : links machine.mem pml4 table index = some (frameOf entry) := by
        rw [links_eq_of_inner bounded inner, found]
        rfl
      have same : entryAt machine.mem table index = entry := by
        unfold presentEntry at found
        split at found
        · cases found
        · exact Option.some.inj found
      have shape := tree.linkEntry path table index _ short ends target
      rw [same] at shape
      simp only [Option.map_some, Option.bind_some]
      rw [← shape]

/-- A table of a longer path is not the top level. -/
theorem ne_root {path : List Nat} {table : Nat} (short : path.length ≤ 3)
    (ends : tableAt machine.mem pml4 path = some table) (long : path ≠ []) : table ≠ pml4 := by
  rintro rfl
  exact long (tree.unshared path [] table short (by simp) ends follow_nil)

theorem frameOf_link {path : List Nat} {table : Nat} (short : path.length ≤ 3)
    (ends : tableAt machine.mem pml4 path = some table) : frameOf (table ||| linkFlags) = table :=
  frameOf_entry (tree.isPage path table short ends) linkFlags_valid

omit tree in
/-- The entries above the leaves grant everything, so the leaf decides. -/
theorem combine_links {first second third leaf : Nat} (isFirst : IsPage first)
    (isSecond : IsPage second) (isThird : IsPage third) :
    combine [first ||| linkFlags, second ||| linkFlags, third ||| linkFlags] leaf =
      combine [] leaf := by
  have write : ∀ {page}, IsPage page → ((page ||| linkFlags) &&& pageWrite != 0) = true := by
    intro page isPage
    rw [entry_and isPage (by decide)]
    rfl
  have execute : ∀ {page}, IsPage page → ((page ||| linkFlags) &&& pageNx != 0) = false := by
    intro page isPage
    rw [entry_and isPage (by decide)]
    rfl
  simp only [combine, List.cons_append, List.nil_append, List.all_cons, List.any_cons,
    write isFirst, write isSecond, write isThird, execute isFirst, execute isSecond,
    execute isThird, Bool.true_and, Bool.false_or]

/-- **Outside slot 510 the walk finds the leaf entry of the path of its slices, and the
permissions it finds are those of that entry.** -/
theorem walk_eq_leafEntry {v : Nat} (inner : slice v 39 ≠ selfMapSlot) :
    walk machine.mem pml4 v =
      (leafEntry machine.mem pml4 [slice v 39, slice v 30, slice v 21] (slice v 12)).map
        (combine []) := by
  have bounded : ∀ low, slice v low < 512 := fun low => Nat.mod_lt _ (by decide)
  have root : tableAt machine.mem pml4 [] = some pml4 := follow_nil
  simp only [walk, Option.bind_eq_bind, Option.pure_def]
  rw [tree.bind_presentEntry (by simp) root (bounded 39) (fun both => inner both.2),
    List.nil_append]
  cases third : tableAt machine.mem pml4 [slice v 39] with
  | none =>
      have gone := leafEntry_eq_none third [slice v 30, slice v 21] (slice v 12)
      rw [List.singleton_append] at gone
      rw [gone]
      rfl
  | some pml3 =>
      have notRoot : pml3 ≠ pml4 := tree.ne_root (by simp) third (by simp)
      simp only [Option.bind_some, tree.frameOf_link (by simp) third]
      rw [tree.bind_presentEntry (by simp) third (bounded 30) (fun both => notRoot both.1),
        List.singleton_append]
      cases second : tableAt machine.mem pml4 [slice v 39, slice v 30] with
      | none =>
          have gone := leafEntry_eq_none second [slice v 21] (slice v 12)
          rw [List.cons_append, List.singleton_append] at gone
          rw [gone]
          rfl
      | some pml2 =>
          have notRoot' : pml2 ≠ pml4 := tree.ne_root (by simp) second (by simp)
          simp only [Option.bind_some, tree.frameOf_link (by simp) second]
          rw [tree.bind_presentEntry (by simp) second (bounded 21) (fun both => notRoot' both.1),
            List.cons_append, List.singleton_append, leafEntry]
          cases first : tableAt machine.mem pml4 [slice v 39, slice v 30, slice v 21] with
          | none => rfl
          | some pml1 =>
              simp only [Option.bind_some, tree.frameOf_link (by simp) first]
              cases presentEntry machine.mem pml1 (slice v 12) with
              | none => rfl
              | some leaf =>
                  simp only [Option.bind_some, Option.map_some]
                  rw [combine_links (tree.isPage _ _ (by simp) third)
                    (tree.isPage _ _ (by simp) second) (tree.isPage _ _ (by simp) first)]

end PageTree

/-! ## Writes that miss the tables -/

section Agree

variable {machine other : Machine} {pml4 : Nat} (tree : PageTree machine pml4)
  (agree : ∀ path table, path.length ≤ 3 → tableAt machine.mem pml4 path = some table →
    ∀ address, (tableExtent table).Contains address → other.mem address = machine.mem address)
include agree

/-- Entries of tables whose bytes agree are the same. -/
theorem entryAt_of_agree {path : List Nat} {table index : Nat} (short : path.length ≤ 3)
    (ends : tableAt machine.mem pml4 path = some table) (bounded : index < 512) :
    entryAt other.mem table index = entryAt machine.mem table index := by
  apply Memory.load64_congr
  intro offset inside
  exact agree path table short ends _ (tableExtent_contains.mpr (by omega))

theorem links_of_agree {path : List Nat} {table : Nat} (short : path.length ≤ 3)
    (ends : tableAt machine.mem pml4 path = some table) (index : Nat) :
    links other.mem pml4 table index = links machine.mem pml4 table index := by
  by_cases bounded : index < 512
  · exact links_congr (entryAt_of_agree agree short ends bounded)
  · rw [links, links, if_neg (fun valid => bounded valid.1), if_neg (fun valid => bounded valid.1)]

theorem tableAt_of_agree (path : List Nat) (short : path.length ≤ 3) :
    tableAt other.mem pml4 path = tableAt machine.mem pml4 path :=
  follow_congr (fun _ _ walked ends => links_of_agree agree (by omega) ends) path short

theorem leafEntry_of_agree (path : List Nat) (index : Nat) (short : path.length ≤ 3)
    (bounded : index < 512) :
    leafEntry other.mem pml4 path index = leafEntry machine.mem pml4 path index := by
  rw [leafEntry, leafEntry, tableAt_of_agree agree path short]
  cases ends : tableAt machine.mem pml4 path with
  | none => simp only [Option.bind_none]
  | some table =>
      simp only [Option.bind_some]
      exact presentEntry_congr (entryAt_of_agree agree short ends bounded)

include tree in
/-- A change outside the tables keeps the tree. -/
theorem PageTree.of_agree (allocated : ∀ extent ∈ machine.allocated, extent ∈ other.allocated) :
    PageTree other pml4 := by
  have paths := tableAt_of_agree agree
  constructor
  · rw [entryAt_of_agree agree (by simp) follow_nil (by decide), tree.selfMap]
  · exact tree.unshared.congr paths
  · intro path table short ends
    exact tree.isPage path table short ((paths path short).symm.trans ends)
  · intro path table short ends
    exact allocated _ (tree.owned path table short ((paths path short).symm.trans ends))
  · intro path table index target short ends isLink
    rw [paths path (by omega)] at ends
    rw [links_of_agree agree (by omega) ends] at isLink
    rw [entryAt_of_agree agree (by omega) ends (index_lt_of_links isLink)]
    exact tree.linkEntry path table index target short ends isLink

end Agree

/-! ## Growing the tree -/

/-- The tables grew from one machine to another: the tree stays a tree, its paths stay, new
tables lie apart from everything allocated before, and memory allocated for something other
than a table keeps its bytes. -/
structure Grows (pml4 : Nat) (before after : Machine) : Prop where
  tree : PageTree after pml4
  kept : ∀ path table, path.length ≤ 3 → tableAt before.mem pml4 path = some table →
    tableAt after.mem pml4 path = some table
  fresh : ∀ path table, path.length ≤ 3 → tableAt after.mem pml4 path = some table →
    tableAt before.mem pml4 path = some table ∨
      ∀ extent ∈ before.allocated, (tableExtent table).Disjoint extent
  allocated : ∀ extent ∈ before.allocated, extent ∈ after.allocated
  others : ∀ address, (∃ extent ∈ before.allocated, extent.Contains address) →
    (∀ path table, path.length ≤ 3 → tableAt before.mem pml4 path = some table →
      ¬ (tableExtent table).Contains address) → after.mem address = before.mem address
  reads : after.reads = before.reads

theorem Grows.refl {pml4 : Nat} {machine : Machine} (tree : PageTree machine pml4) :
    Grows pml4 machine machine where
  tree := tree
  kept _ _ _ ends := ends
  fresh _ _ _ ends := .inl ends
  allocated _ member := member
  others _ _ _ := rfl
  reads := rfl

theorem Grows.trans {pml4 : Nat} {first second third : Machine}
    (earlier : Grows pml4 first second) (later : Grows pml4 second third) :
    Grows pml4 first third where
  tree := later.tree
  kept path table short ends := later.kept path table short (earlier.kept path table short ends)
  fresh path table short ends := by
    rcases later.fresh path table short ends with old | apart
    · exact earlier.fresh path table short old
    · exact .inr fun extent member => apart extent (earlier.allocated extent member)
  allocated extent member := later.allocated extent (earlier.allocated extent member)
  others address inside outside := by
    obtain ⟨extent, member, contains⟩ := inside
    rw [← earlier.others address ⟨extent, member, contains⟩ outside]
    refine later.others address ⟨extent, earlier.allocated extent member, contains⟩ ?_
    intro path table short ends inTable
    rcases earlier.fresh path table short ends with old | apart
    · exact outside path table short old inTable
    · exact apart extent member address inTable contains
  reads := later.reads.trans earlier.reads

namespace PageTree

variable {fw : Firmware} {machine : Machine} {pml4 : Nat} (tree : PageTree machine pml4)

/-- The machine in which a granted page is linked into an entry. -/
def linked (fw : Firmware) (machine : Machine) (table index page : Nat) : Machine :=
  { machine.withPages fw page 1 with
    mem := (machine.mem.fill page pageSize 0).store64 (table + 8 * index) (page ||| linkFlags) }

section Link

variable {path : List Nat} {table index page : Nat}

theorem isPage_of_granted (granted : fw.allocatePages machine 1 = some page) : IsPage page := by
  have below := fw.allocatePages_below machine 1 page granted
  rw [Nat.one_mul] at below
  exact ⟨fw.allocatePages_aligned machine 1 page granted, below⟩

include tree in
/-- A granted page is none of the tables. -/
theorem ne_granted (granted : fw.allocatePages machine 1 = some page) {other : List Nat}
    {found : Nat} (short : other.length ≤ 3)
    (ends : tableAt machine.mem pml4 other = some found) : found ≠ page := by
  rintro rfl
  have apart := fw.allocatePages_fresh machine 1 found granted _ (tree.owned other found short ends)
  have inside : (tableExtent found).Contains found := tableExtent_contains.mpr (by omega)
  exact apart found inside inside

/-- The entries after a page is linked. -/
theorem entryAt_linked (aligned : table % pageSize = 0) (isPage : IsPage page)
    (bounded : index < 512) {other slot : Nat}
    (otherAligned : other % pageSize = 0) (slotBounded : slot < 512) :
    entryAt (linked fw machine table index page).mem other slot =
      if other = table ∧ slot = index then page ||| linkFlags
      else if other = page then 0 else entryAt machine.mem other slot := by
  rw [linked, entryAt_writeWord otherAligned aligned slotBounded bounded
    (entry_lt isPage linkFlags_valid), entryAt_fill otherAligned isPage.1 slotBounded]

variable (short : path.length < 3) (ends : tableAt machine.mem pml4 path = some table)
  (bounded : index < 512) (inner : ¬ (table = pml4 ∧ index = selfMapSlot))
  (absent : presentEntry machine.mem table index = none)
  (granted : fw.allocatePages machine 1 = some page)
include tree short ends bounded inner absent granted

/-- Exactly one path is new when a page is linked. -/
theorem tableAt_linked (other : List Nat) (otherShort : other.length ≤ 3) :
    tableAt (linked fw machine table index page).mem pml4 other =
      if other = path ++ [index] then some page else tableAt machine.mem pml4 other := by
  have isPage := isPage_of_granted granted
  have isTable := tree.isPage path table (by omega) ends
  have apart := tree.ne_granted granted (by omega) ends
  have noLink : links machine.mem pml4 table index = none := by
    rw [links_eq_of_inner bounded inner, absent]
    rfl
  have newLink : links (linked fw machine table index page).mem pml4 table index = some page := by
    have entry : entryAt (linked fw machine table index page).mem table index =
        page ||| linkFlags := by
      rw [entryAt_linked isTable.1 isPage bounded isTable.1 bounded, if_pos ⟨rfl, rfl⟩]
    rw [links_eq_of_inner bounded inner,
      presentEntry_eq_some entry (entry_present isPage linkFlags_valid), Option.map_some,
      frameOf_entry isPage linkFlags_valid]
  have blank : ∀ slot, links (linked fw machine table index page).mem pml4 page slot = none := by
    intro slot
    unfold links
    split
    · rename_i valid
      rw [presentEntry_eq_none_of_zero]
      · rfl
      · rw [entryAt_linked isTable.1 isPage bounded isPage.1 valid.1,
          if_neg fun both => apart both.1.symm, if_pos rfl]
    · rfl
  have rest : ∀ (walked : List Nat) found slot, walked.length < 3 →
      follow (links machine.mem pml4) pml4 walked = some found →
        (walked ≠ path ∨ slot ≠ index) →
          links (linked fw machine table index page).mem pml4 found slot =
            links machine.mem pml4 found slot := by
    intro walked found slot walkedShort foundEnds differs
    by_cases slotBounded : slot < 512
    · apply links_congr
      rw [entryAt_linked isTable.1 isPage bounded
        (tree.isPage walked found (by omega) foundEnds).1 slotBounded,
        if_neg, if_neg (tree.ne_granted granted (by omega) foundEnds)]
      rintro ⟨rfl, rfl⟩
      have same := tree.unshared walked path found (by omega) (by omega) foundEnds ends
      exact differs.elim (fun other => other same) fun other => other rfl
    · rw [links, links, if_neg (fun valid => slotBounded valid.1),
        if_neg (fun valid => slotBounded valid.1)]
  exact follow_link ends noLink newLink blank rest other otherShort

/-- A table of the new tables is the new one or an old one. -/
theorem linked_cases {other : List Nat} {found : Nat} (otherShort : other.length ≤ 3)
    (otherEnds : tableAt (linked fw machine table index page).mem pml4 other = some found) :
    found = page ∨ tableAt machine.mem pml4 other = some found := by
  rw [tree.tableAt_linked short ends bounded inner absent granted other otherShort] at otherEnds
  split at otherEnds
  · exact .inl (Option.some.inj otherEnds).symm
  · exact .inr otherEnds

omit tree short granted in
/-- No table ends the new path before. -/
theorem ne_new_path {other : List Nat} {found : Nat}
    (otherEnds : tableAt machine.mem pml4 other = some found) : other ≠ path ++ [index] := by
  rintro rfl
  rw [tableAt] at ends
  rw [tableAt, follow_concat, ends, Option.bind_some, links_eq_of_inner bounded inner, absent]
    at otherEnds
  cases otherEnds

/-- The links of the new tables are the new one and the old ones, with the link flags. -/
theorem linkEntry_linked (other : List Nat) (found slot target : Nat) (otherShort : other.length < 3)
    (otherEnds : tableAt (linked fw machine table index page).mem pml4 other = some found)
    (isLink : links (linked fw machine table index page).mem pml4 found slot = some target) :
    entryAt (linked fw machine table index page).mem found slot = target ||| linkFlags := by
  have isPage := isPage_of_granted granted
  have isTable := tree.isPage path table (by omega) ends
  have noLink : links machine.mem pml4 table index = none := by
    rw [links_eq_of_inner bounded inner, absent]
    rfl
  have slotBounded := index_lt_of_links isLink
  rcases link_cases ends noLink (tree.tableAt_linked short ends bounded inner absent granted)
    otherShort otherEnds isLink with ⟨rfl, rfl, rfl⟩ | ⟨oldEnds, oldLink⟩
  · rw [entryAt_linked isTable.1 isPage bounded isTable.1 bounded, if_pos ⟨rfl, rfl⟩]
  · have notNew : ¬ (found = table ∧ slot = index) := by
      rintro ⟨rfl, rfl⟩
      rw [noLink] at oldLink
      cases oldLink
    rw [entryAt_linked isTable.1 isPage bounded
      (tree.isPage other found (by omega) oldEnds).1 slotBounded, if_neg notNew,
      if_neg (tree.ne_granted granted (by omega) oldEnds)]
    exact tree.linkEntry other found slot target (by omega) oldEnds oldLink

theorem linked_tree : PageTree (linked fw machine table index page) pml4 := by
  have isPage := isPage_of_granted granted
  have isTable := tree.isPage path table (by omega) ends
  have paths := tree.tableAt_linked short ends bounded inner absent granted
  constructor
  · rw [entryAt_linked isTable.1 isPage bounded tree.isPage_root.1 (by decide), if_neg,
      if_neg (tree.ne_granted granted (by simp) follow_nil), tree.selfMap]
    rintro ⟨rfl, same⟩
    exact inner ⟨rfl, same.symm⟩
  · apply tree.unshared.link _ paths
    exact fun other otherShort otherEnds => tree.ne_granted granted otherShort otherEnds rfl
  · intro other found otherShort otherEnds
    rcases tree.linked_cases short ends bounded inner absent granted otherShort otherEnds with
      rfl | old
    · exact isPage
    · exact tree.isPage other found otherShort old
  · intro other found otherShort otherEnds
    rcases tree.linked_cases short ends bounded inner absent granted otherShort otherEnds with
      rfl | old
    · simp [linked, Machine.withPages, tableExtent]
    · have owned := tree.owned other found otherShort old
      simp [linked, Machine.withPages, owned]
  · exact tree.linkEntry_linked short ends bounded inner absent granted

/-- Linking a page keeps the tree. -/
theorem link : Grows pml4 machine (linked fw machine table index page) := by
  have paths := tree.tableAt_linked short ends bounded inner absent granted
  have fresh := fw.allocatePages_fresh machine 1 page granted
  rw [Nat.one_mul] at fresh
  constructor
  · exact tree.linked_tree short ends bounded inner absent granted
  · intro other found otherShort otherEnds
    rw [paths other otherShort, if_neg (ne_new_path ends bounded inner absent otherEnds)]
    exact otherEnds
  · intro other found otherShort otherEnds
    rcases tree.linked_cases short ends bounded inner absent granted otherShort otherEnds with
      rfl | old
    · exact .inr fresh
    · exact .inl old
  · intro extent member
    simp [linked, Machine.withPages, member]
  · rintro address ⟨extent, member, contains⟩ outside
    have notPage : ¬ (tableExtent page).Contains address := fun inside =>
      fresh extent member address inside contains
    have notTable := outside path table (by omega) ends
    rw [tableExtent_contains] at notPage notTable
    show ((machine.mem.fill page 0x1000 0).store64 (table + 8 * index) (page ||| linkFlags))
      address = machine.mem address
    rw [Memory.store64_outside _ (by omega), Memory.fill_outside _ (by omega)]
  · rfl

/-- Linking a page maps nothing and unmaps nothing. -/
theorem leafEntry_linked (other : List Nat) (leaf : Nat) (long : other.length = 3)
    (leafBounded : leaf < 512) :
    leafEntry (linked fw machine table index page).mem pml4 other leaf =
      leafEntry machine.mem pml4 other leaf := by
  have isPage := isPage_of_granted granted
  have isTable := tree.isPage path table (by omega) ends
  have apart := tree.ne_granted granted (by omega) ends
  rw [leafEntry, leafEntry, tree.tableAt_linked short ends bounded inner absent granted other
    (by omega)]
  split
  · rename_i isNew
    have unmapped : tableAt machine.mem pml4 other = none := by
      rw [isNew, tableAt, follow_concat]
      rw [tableAt] at ends
      rw [ends]
      simp only [Option.bind_some, links_eq_of_inner bounded inner, absent, Option.map_none]
    have zero : entryAt (linked fw machine table index page).mem page leaf = 0 := by
      rw [entryAt_linked isTable.1 isPage bounded isPage.1 leafBounded,
        if_neg fun both => apart both.1.symm, if_pos rfl]
    simp only [unmapped, Option.bind_some, Option.bind_none, presentEntry_eq_none_of_zero zero]
  · cases otherEnds : tableAt machine.mem pml4 other with
    | none => simp only [Option.bind_none]
    | some found =>
        have elsewhere : ¬ (found = table ∧ leaf = index) := by
          rintro ⟨rfl, -⟩
          have same := tree.unshared other path found (by omega) (by omega) otherEnds ends
          rw [same] at long
          omega
        have entry : entryAt (linked fw machine table index page).mem found leaf =
            entryAt machine.mem found leaf := by
          rw [entryAt_linked isTable.1 isPage bounded
            (tree.isPage other found (by omega) otherEnds).1 leafBounded, if_neg elsewhere,
            if_neg (tree.ne_granted granted (by omega) otherEnds)]
        simp only [Option.bind_some]
        exact presentEntry_congr entry

end Link

/-! ## Writing a leaf -/

section Leaf

variable {path : List Nat} {table index value : Nat}

/-- The machine in which an entry is written. -/
def written (machine : Machine) (table index value : Nat) : Machine :=
  { machine with mem := machine.mem.store64 (table + 8 * index) value }

variable (long : path.length = 3) (ends : tableAt machine.mem pml4 path = some table)
  (bounded : index < 512) (fits : value < 2 ^ 64)
include tree long ends bounded fits

theorem entryAt_written {other slot : Nat} (aligned : other % pageSize = 0)
    (slotBounded : slot < 512) :
    entryAt (written machine table index value).mem other slot =
      if other = table ∧ slot = index then value else entryAt machine.mem other slot :=
  entryAt_writeWord aligned (tree.isPage path table (by omega) ends).1 slotBounded bounded fits

/-- The tables above the leaves keep their entries when a leaf is written. -/
theorem links_written {other : List Nat} {found : Nat} (short : other.length < 3)
    (otherEnds : tableAt machine.mem pml4 other = some found) (slot : Nat) :
    links (written machine table index value).mem pml4 found slot =
      links machine.mem pml4 found slot := by
  by_cases slotBounded : slot < 512
  · apply links_congr
    rw [tree.entryAt_written long ends bounded fits
      (tree.isPage other found (by omega) otherEnds).1 slotBounded, if_neg]
    rintro ⟨rfl, -⟩
    have same := tree.unshared other path found (by omega) (by omega) otherEnds ends
    rw [same] at short
    omega
  · rw [links, links, if_neg (fun valid => slotBounded valid.1),
      if_neg (fun valid => slotBounded valid.1)]

theorem tableAt_written (other : List Nat) (short : other.length ≤ 3) :
    tableAt (written machine table index value).mem pml4 other = tableAt machine.mem pml4 other :=
  follow_congr (fun _ _ walkedShort walkedEnds =>
    tree.links_written long ends bounded fits walkedShort walkedEnds) other short

/-- Writing a leaf keeps the tree. -/
theorem writeLeaf : Grows pml4 machine (written machine table index value) := by
  have paths := tree.tableAt_written long ends bounded fits
  constructor
  · constructor
    · rw [tree.entryAt_written long ends bounded fits tree.isPage_root.1 (by decide), if_neg,
        tree.selfMap]
      rintro ⟨rfl, -⟩
      exact tree.ne_root (by omega) ends (by rintro rfl; simp at long) rfl
    · exact tree.unshared.congr paths
    · intro other found short otherEnds
      exact tree.isPage other found short ((paths other short).symm.trans otherEnds)
    · intro other found short otherEnds
      exact tree.owned other found short ((paths other short).symm.trans otherEnds)
    · intro other found slot target short otherEnds isLink
      rw [paths other (by omega)] at otherEnds
      rw [tree.links_written long ends bounded fits short otherEnds] at isLink
      have slotBounded := index_lt_of_links isLink
      rw [tree.entryAt_written long ends bounded fits
        (tree.isPage other found (by omega) otherEnds).1 slotBounded, if_neg]
      · exact tree.linkEntry other found slot target short otherEnds isLink
      · rintro ⟨rfl, -⟩
        have same := tree.unshared other path found (by omega) (by omega) otherEnds ends
        rw [same] at short
        omega
  · intro other found short otherEnds
    rw [paths other short]
    exact otherEnds
  · intro other found short otherEnds
    exact .inl ((paths other short).symm.trans otherEnds)
  · exact fun _ member => member
  · intro address _ outside
    have notTable := outside path table (by omega) ends
    rw [tableExtent_contains] at notTable
    exact Memory.store64_outside _ (by omega)
  all_goals rfl

/-- Writing a present leaf maps one page and leaves the others. -/
theorem leafEntry_written (present : value &&& pagePresent ≠ 0) (other : List Nat) (leaf : Nat)
    (otherLong : other.length = 3) (leafBounded : leaf < 512) :
    leafEntry (written machine table index value).mem pml4 other leaf =
      if other = path ∧ leaf = index then some value
      else leafEntry machine.mem pml4 other leaf := by
  rw [leafEntry, leafEntry, tree.tableAt_written long ends bounded fits other (by omega)]
  cases otherEnds : tableAt machine.mem pml4 other with
  | none =>
      have elsewhere : ¬ (other = path ∧ leaf = index) := by
        rintro ⟨rfl, -⟩
        rw [ends] at otherEnds
        cases otherEnds
      simp only [elsewhere, if_false, Option.bind_none]
  | some found =>
      have entry := tree.entryAt_written long ends bounded fits
        (tree.isPage other found (by omega) otherEnds).1 leafBounded
      simp only [Option.bind_some]
      by_cases here : other = path ∧ leaf = index
      · obtain ⟨rfl, rfl⟩ := here
        rw [ends] at otherEnds
        cases otherEnds
        rw [if_pos ⟨rfl, rfl⟩] at entry ⊢
        exact presentEntry_eq_some entry present
      · rw [if_neg here]
        rw [if_neg] at entry
        · exact presentEntry_congr entry
        · rintro ⟨rfl, rfl⟩
          exact here ⟨tree.unshared other path found (by omega) (by omega) otherEnds ends, rfl⟩

end Leaf

end PageTree

end VineyardLoader
