import Mathlib.Data.List.Basic
import Mathlib.Tactic.Common

/-!
# Chains of records

A record code encodes each record so that the end of a record is known from its own bytes. A
chain is the encoding of a list of records, closed by a stop that no record starts with.

Of two chains at the start of the same bytes each is the other (`chain_cancel`), so the bytes
determine the records. Putting a chain over the stop of another joins their lists
(`chain_append`), and one stop is saved (`chain_append_length`).
-/

set_option autoImplicit false

namespace VineyardLoader

/-- Encodings of records, and a stop. A record is known from the start of what it encodes to,
and so is the stop. -/
structure RecordCode (α ρ : Type*) where
  encode : ρ → List α
  stop : List α
  cancel : ∀ {first second : ρ} {rest other : List α},
    encode first ++ rest = encode second ++ other → first = second ∧ rest = other
  apart : ∀ {record : ρ} {rest other : List α}, encode record ++ rest ≠ stop ++ other

namespace RecordCode

variable {α ρ : Type*} (code : RecordCode α ρ)

/-- The records one after the other. -/
def records (list : List ρ) : List α := list.flatMap code.encode

/-- The records, closed by the stop. -/
def chain (list : List ρ) : List α := code.records list ++ code.stop

@[simp]
theorem records_nil : code.records [] = [] := rfl

@[simp]
theorem records_cons (record : ρ) (list : List ρ) :
    code.records (record :: list) = code.encode record ++ code.records list := rfl

theorem chain_cons (record : ρ) (list : List ρ) :
    code.chain (record :: list) = code.encode record ++ code.chain list := by
  rw [chain, records_cons, List.append_assoc, chain]

/-- **A chain put over the stop of another** is the chain of the joined lists. -/
theorem chain_append (first second : List ρ) :
    code.chain (first ++ second) = code.records first ++ code.chain second := by
  rw [chain, records, List.flatMap_append, List.append_assoc, chain, records, records]

theorem chain_length (list : List ρ) :
    (code.chain list).length = (code.records list).length + code.stop.length :=
  List.length_append

/-- The joined chain has one stop less. -/
theorem chain_append_length (first second : List ρ) :
    (code.chain (first ++ second)).length + code.stop.length =
      (code.chain first).length + (code.chain second).length := by
  rw [chain_append, List.length_append, chain_length code first]
  omega

/-- **The bytes determine the records.** -/
theorem chain_cancel {first : List ρ} :
    ∀ {second : List ρ} {rest other : List α},
      code.chain first ++ rest = code.chain second ++ other → first = second := by
  induction first with
  | nil =>
      intro second rest other same
      cases second with
      | nil => rfl
      | cons record second =>
          rw [chain_cons, List.append_assoc] at same
          exact absurd same.symm code.apart
  | cons record first ih =>
      intro second rest other same
      cases second with
      | nil =>
          rw [chain_cons, List.append_assoc] at same
          exact absurd same code.apart
      | cons head second =>
          rw [chain_cons, chain_cons, List.append_assoc, List.append_assoc] at same
          obtain ⟨rfl, tails⟩ := code.cancel same
          rw [ih tails]

end RecordCode

end VineyardLoader
