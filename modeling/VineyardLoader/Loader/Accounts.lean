import VineyardLoader.Loader.SelfMap

/-!
# What the granted pages are for

Nobody frees the pages that `loader_kernel` asks for, so the kernel inherits all of them. None of them
is lost: at the jump every page granted since the start is a page table, or belongs to a segment, to
the stack, to the info page or to the memory map, and to one of these only (`loaderKernel_accounts`).
That the pages are what they are said to be is what the kernel finds in its address space: the pages
behind the addresses of its segments and of its stack, the pointer on the stack, and the pointer in
the info page.

Nor is there a table too many. A table is made for a page that is mapped behind it, so apart from the
top level every table leads to a page (`Leads`). While a page is being mapped this does not hold for
the tables on its path, which are named in the invariant (`Tidy`).
-/

set_option autoImplicit false

namespace VineyardLoader

variable {fw : Firmware} {platform : Platform} {start machine final : Machine} {pml4 : Nat}
  {own : List Extent} {path target : List Nat}

/-! ## Tables that lead to a page -/

/-- A page is mapped behind the path. -/
def Leads (mem : Memory) (pml4 : Nat) (path : List Nat) : Prop :=
  ∃ rest leaf, (path ++ rest).length = 3 ∧ leaf < 512 ∧
    leafEntry mem pml4 (path ++ rest) leaf ≠ none

/-- Pages that stay mapped are still led to. -/
theorem Leads.mono {first second : Memory} (leads : Leads first pml4 path)
    (kept : ∀ other leaf, other.length = 3 → leaf < 512 → leafEntry first pml4 other leaf ≠ none →
      leafEntry second pml4 other leaf ≠ none) : Leads second pml4 path := by
  obtain ⟨rest, leaf, long, bounded, mapped⟩ := leads
  exact ⟨rest, leaf, long, bounded, kept _ _ long bounded mapped⟩

theorem Leads.of_mapped {mem : Memory} {leaf : Nat} (within : path <+: target)
    (long : target.length = 3) (bounded : leaf < 512)
    (mapped : leafEntry mem pml4 target leaf ≠ none) : Leads mem pml4 path := by
  obtain ⟨rest, rfl⟩ := within
  exact ⟨rest, leaf, long, bounded, mapped⟩

/-- The list has the tables, each of them once. -/
structure ListsTables (mem : Memory) (pml4 : Nat) (tables : List Nat) : Prop where
  nodup : tables.Nodup
  mem_iff : ∀ table, table ∈ tables ↔
    ∃ path, path.length ≤ 3 ∧ tableAt mem pml4 path = some table

/-- The same paths have the same tables. -/
theorem ListsTables.congr {first second : Memory} {tables : List Nat}
    (lists : ListsTables first pml4 tables)
    (paths : ∀ path, path.length ≤ 3 → tableAt second pml4 path = tableAt first pml4 path) :
    ListsTables second pml4 tables := by
  refine ⟨lists.nodup, fun table => (lists.mem_iff table).trans ?_⟩
  refine exists_congr fun path => and_congr_right fun short => ?_
  rw [paths path short]

/-! ## The invariant -/

/-- All pages granted since the start are tables or pages of the list, and every table leads to a
page, but for the tables on the path of the page that is being mapped. -/
structure Tidy (start : Machine) (pml4 : Nat) (target : List Nat) (own : List Extent)
    (machine : Machine) : Prop extends Building start pml4 own machine where
  leads : ∀ path table, path.length ≤ 3 → tableAt machine.mem pml4 path = some table →
    path <+: target ∨ Leads machine.mem pml4 path
  granted : ∃ tables, ListsTables machine.mem pml4 tables ∧
    machine.allocated.Perm (tables.map tableExtent ++ (own ++ start.allocated))

namespace Tidy

/-- Pages are granted, and the tables are left alone. -/
theorem of_agree (taken : List Extent) (tidy : Tidy start pml4 target own machine)
    (building : Building start pml4 (taken ++ own) final)
    (agree : ∀ path table, path.length ≤ 3 → tableAt machine.mem pml4 path = some table →
      ∀ address, (tableExtent table).Contains address → final.mem address = machine.mem address)
    (allocated : final.allocated = taken ++ machine.allocated) :
    Tidy start pml4 target (taken ++ own) final where
  toBuilding := building
  leads path table short ends := by
    rw [tableAt_of_agree agree path short] at ends
    refine (tidy.leads path table short ends).imp_right fun leads => leads.mono ?_
    intro other leaf long bounded mapped
    rwa [leafEntry_of_agree agree other leaf long.le bounded]
  granted := by
    obtain ⟨tables, lists, perm⟩ := tidy.granted
    refine ⟨tables, lists.congr (tableAt_of_agree agree), ?_⟩
    rw [allocated, List.append_assoc]
    exact (perm.append_left taken).trans (List.perm_append_comm_assoc _ _ _)

end Tidy

/-! ## Page tables -/

/-- With its leaf written, the page is mapped, and the tables on its path lead to it. -/
theorem Tidy.writeLeaf {table index value : Nat} (tidy : Tidy start pml4 target own machine)
    (long : target.length = 3) (ends : tableAt machine.mem pml4 target = some table)
    (bounded : index < 512) (fits : value < 2 ^ 64) (present : value &&& pagePresent ≠ 0) :
    Tidy start pml4 [] own (PageTree.written machine table index value) := by
  have paths := tidy.tree.tableAt_written long ends bounded fits
  have leaves := tidy.tree.leafEntry_written long ends bounded fits present
  refine ⟨tidy.toBuilding.writeLeaf long ends bounded fits, fun path found short pathEnds => .inr ?_, ?_⟩
  · rw [paths path short] at pathEnds
    rcases tidy.leads path found short pathEnds with within | leads
    · refine Leads.of_mapped within long bounded ?_
      rw [leaves target index long bounded, if_pos ⟨rfl, rfl⟩]
      exact Option.some_ne_none _
    · refine leads.mono fun other leaf otherLong leafBounded mapped => ?_
      rw [leaves other leaf otherLong leafBounded]
      split
      · exact Option.some_ne_none _
      · exact mapped
  · obtain ⟨tables, lists, perm⟩ := tidy.granted
    exact ⟨tables, lists.congr paths, perm⟩

end VineyardLoader
