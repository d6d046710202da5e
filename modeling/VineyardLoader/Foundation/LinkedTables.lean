import Mathlib.Data.List.Basic
import Mathlib.Data.List.Induction
import Mathlib.Tactic.Common

/-!
# Tables that link to tables

A table has entries, and an entry may link to another table. A path is a list of entry
indices, and following a path from the root gives the table it ends in, if every entry on
the way links. The tables form a tree, down to a depth, when no table ends two paths
(`Unshared`).

Two changes to the links occur. When the links of the tables above the depth stay as they
were, every path ends where it did (`follow_congr`). When an entry that linked nowhere is
linked to a table that no path reached and that has no links of its own, exactly one path
is new (`follow_link`), exactly one link is new (`link_cases`), and the tree stays a tree
(`Unshared.link`).
-/

set_option autoImplicit false

namespace VineyardLoader

section LinkedTables

variable {Table Index : Type}

/-- The table at the end of a path. -/
def follow (next : Table → Index → Option Table) (root : Table) (path : List Index) :
    Option Table :=
  path.foldlM next root

/-- No table ends two paths of at most the depth. -/
def Unshared (next : Table → Index → Option Table) (root : Table) (depth : Nat) : Prop :=
  ∀ (first second : List Index) (table : Table), first.length ≤ depth → second.length ≤ depth →
    follow next root first = some table → follow next root second = some table →
      first = second

variable {next later : Table → Index → Option Table} {root : Table} {depth : Nat}

@[simp]
theorem follow_nil : follow next root [] = some root := rfl

@[simp]
theorem follow_concat (path : List Index) (index : Index) :
    follow next root (path ++ [index]) =
      (follow next root path).bind fun table => next table index := by
  simp [follow, List.foldlM_append]

/-- A path that ends nowhere has no continuation. -/
theorem follow_append_eq_none {path : List Index} (gone : follow next root path = none)
    (rest : List Index) : follow next root (path ++ rest) = none := by
  unfold follow at gone ⊢
  rw [List.foldlM_append, gone]
  rfl

/-- A path that ends somewhere has prefixes that end somewhere. -/
theorem follow_concat_eq_some {path : List Index} {index : Index} {table : Table} :
    follow next root (path ++ [index]) = some table ↔
      ∃ parent, follow next root path = some parent ∧ next parent index = some table := by
  rw [follow_concat, Option.bind_eq_some_iff]

/-- A root without links ends only the empty path. -/
theorem follow_of_no_links (noLinks : ∀ index, next root index = none) {path : List Index}
    {table : Table} (ends : follow next root path = some table) : path = [] ∧ table = root := by
  induction path using List.reverseRecOn generalizing table with
  | nil => exact ⟨rfl, (Option.some.inj ends).symm⟩
  | append_singleton path index ih =>
      obtain ⟨parent, parentEnds, isLink⟩ := follow_concat_eq_some.mp ends
      obtain ⟨-, rfl⟩ := ih parentEnds
      rw [noLinks] at isLink
      cases isLink

/-- Tables whose links stay as they were leave every path as it was. -/
theorem follow_congr
    (agree : ∀ path table, path.length < depth → follow next root path = some table →
      ∀ index, later table index = next table index) :
    ∀ path : List Index, path.length ≤ depth →
      follow later root path = follow next root path := by
  intro path
  induction path using List.reverseRecOn with
  | nil => intro _; rfl
  | append_singleton path index ih =>
      intro short
      rw [List.length_append, List.length_singleton] at short
      rw [follow_concat, follow_concat, ih (by omega)]
      cases ends : follow next root path with
      | none => rfl
      | some table => exact agree path table (by omega) ends index

theorem Unshared.congr (unshared : Unshared next root depth)
    (agree : ∀ path : List Index, path.length ≤ depth →
      follow later root path = follow next root path) : Unshared later root depth := by
  intro first second table firstShort secondShort firstEnds secondEnds
  rw [agree first firstShort] at firstEnds
  rw [agree second secondShort] at secondEnds
  exact unshared first second table firstShort secondShort firstEnds secondEnds

section Link

variable [DecidableEq Index] {path : List Index} {parent child : Table} {slot : Index}

/-- Linking an empty entry to a blank table adds one path. -/
theorem follow_link (ends : follow next root path = some parent)
    (absent : next parent slot = none) (linked : later parent slot = some child)
    (blank : ∀ index, later child index = none)
    (rest : ∀ other table index, other.length < depth → follow next root other = some table →
      (other ≠ path ∨ index ≠ slot) → later table index = next table index) :
    ∀ other : List Index, other.length ≤ depth →
      follow later root other =
        if other = path ++ [slot] then some child else follow next root other := by
  intro other
  induction other using List.reverseRecOn with
  | nil => intro _; simp
  | append_singleton other index ih =>
      intro short
      rw [List.length_append, List.length_singleton] at short
      rw [follow_concat, ih (by omega)]
      by_cases extends_ : other = path ++ [slot]
      · -- the new table has no links, and the old links did not reach it
        subst extends_
        rw [if_pos rfl, if_neg (by simp), follow_concat, follow_concat, ends]
        simp [absent, blank]
      · rw [if_neg extends_, follow_concat]
        cases before : follow next root other with
        | none =>
            rw [if_neg]
            · rfl
            · intro same
              obtain ⟨rfl, -⟩ := List.append_inj' same rfl
              rw [ends] at before
              cases before
        | some table =>
            by_cases here : other = path ∧ index = slot
            · obtain ⟨rfl, rfl⟩ := here
              rw [ends] at before
              cases before
              rw [if_pos rfl]
              exact linked
            · have differs : other ≠ path ∨ index ≠ slot := by tauto
              rw [if_neg]
              · exact rest other table index (by omega) before differs
              · intro same
                obtain ⟨rfl, last⟩ := List.append_inj' same rfl
                exact here ⟨rfl, by simpa using last⟩

/-- A link that is on a path afterwards is the new one or was on the path before. -/
theorem link_cases (ends : follow next root path = some parent) (absent : next parent slot = none)
    (paths : ∀ other : List Index, other.length ≤ depth →
      follow later root other =
        if other = path ++ [slot] then some child else follow next root other)
    {other : List Index} {table target : Table} {index : Index} (short : other.length < depth)
    (reached : follow later root other = some table) (isLink : later table index = some target) :
    (table = parent ∧ index = slot ∧ target = child) ∨
      (follow next root other = some table ∧ next table index = some target) := by
  have next_ : follow later root (other ++ [index]) = some target :=
    follow_concat_eq_some.mpr ⟨table, reached, isLink⟩
  have nowhere : follow next root (path ++ [slot]) = none := by
    rw [follow_concat, ends]
    exact absent
  rw [paths _ (by simp; omega)] at next_
  rw [paths _ (by omega)] at reached
  split at next_
  · rename_i isNew
    obtain ⟨rfl, same⟩ := List.append_inj' isNew rfl
    rw [if_neg (by simp), ends] at reached
    cases reached
    cases next_
    exact .inl ⟨rfl, by simpa using same, rfl⟩
  · obtain ⟨before, beforeEnds, beforeLink⟩ := follow_concat_eq_some.mp next_
    split at reached
    · rename_i isNew
      rw [isNew, nowhere] at beforeEnds
      cases beforeEnds
    · rw [reached] at beforeEnds
      cases beforeEnds
      exact .inr ⟨reached, beforeLink⟩

/-- **Linking a table that no path reached keeps the tree a tree.** -/
theorem Unshared.link (unshared : Unshared next root depth)
    (fresh : ∀ other : List Index, other.length ≤ depth → follow next root other ≠ some child)
    (paths : ∀ other : List Index, other.length ≤ depth →
      follow later root other =
        if other = path ++ [slot] then some child else follow next root other) :
    Unshared later root depth := by
  intro first second table firstShort secondShort firstEnds secondEnds
  rw [paths first firstShort] at firstEnds
  rw [paths second secondShort] at secondEnds
  split at firstEnds
  · split at secondEnds
    · simp_all
    · cases firstEnds
      exact absurd secondEnds (fresh second secondShort)
  · split at secondEnds
    · cases secondEnds
      exact absurd firstEnds (fresh first firstShort)
    · exact unshared first second table firstShort secondShort firstEnds secondEnds

end Link

end LinkedTables

end VineyardLoader
