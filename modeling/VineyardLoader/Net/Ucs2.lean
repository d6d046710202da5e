import VineyardLoader.Foundation.Bits
import VineyardLoader.Lib.Strings
import VineyardLoader.Net.Paths

/-!
# The conversion of paths to UCS-2

`uefi_to_ucs2` moves its index past a character before it reads the bytes that continue the
character, so for those it reads the bytes of what follows. The run is taken with the indices
it reads and the units it writes (`ucs2Run`), on a memory that holds the string and goes on
after it.

The units are those of the characters exactly when the bytes read have the low bits of the
bytes meant (`uefiToUcs2_decodes_iff`). The bytes read lie in the string exactly when enough
bytes follow the characters (`uefiToUcs2_inside_iff`).
-/

set_option autoImplicit false

namespace VineyardLoader

/-! ## Runs -/

/-- The indices that a turn of the loop of `uefi_to_ucs2` reads. -/
def ucs2Reads (utf8 : Memory) (utf8i : Nat) : List Nat :=
  let c0 := (utf8 utf8i).toNat
  if c0 &&& 0x80 = 0 then [utf8i]
  else if c0 &&& 0xE0 = 0xC0 then
    let next := utf8i + 2
    [utf8i, next + 1]
  else if c0 &&& 0xF0 = 0xE0 then
    let next := utf8i + 3
    [utf8i, next + 1, next + 2]
  else [utf8i]

/-- The indices of the input that a run read, and the units of the output in order. -/
structure Ucs2Run where
  reads : List Nat
  units : List Nat
deriving Repr, DecidableEq

/-- The run of `uefi_to_ucs2` from an index on, if it ends in fewer turns than the given
number. -/
def ucs2Run (utf8 : Memory) : Nat → Nat → Option Ucs2Run
  | 0, _ => none
  | turns + 1, utf8i =>
      if utf8 utf8i = 0 then some ⟨[utf8i], [0]⟩
      else
        let (next, value) := ucs2Step utf8 utf8i
        (ucs2Run utf8 turns next).map fun rest =>
          ⟨ucs2Reads utf8 utf8i ++ rest.reads, value :: rest.units⟩

section Runs

variable {utf8 : Memory} {turns utf8i : Nat} {run : Ucs2Run}

theorem ucs2Run_of_zero (ended : utf8 utf8i = 0) :
    ucs2Run utf8 (turns + 1) utf8i = some ⟨[utf8i], [0]⟩ := by
  rw [ucs2Run, if_pos ended]

theorem ucs2Run_of_ne_zero (nonzero : utf8 utf8i ≠ 0) :
    ucs2Run utf8 (turns + 1) utf8i =
      (ucs2Run utf8 turns (utf8i + sequenceLength (utf8 utf8i))).map fun rest =>
        ⟨ucs2Reads utf8 utf8i ++ rest.reads, (ucs2Step utf8 utf8i).2 :: rest.units⟩ := by
  rw [ucs2Run, if_neg nonzero, ← ucs2Step_next]

/-- A conversion into a room of units is a run of as many turns, without its final zero. -/
theorem ucs2Loop_eq_ucs2Run :
    ∀ (turns utf8i : Nat),
      (ucs2Loop utf8 turns utf8i).map (· ++ [0]) = (ucs2Run utf8 turns utf8i).map Ucs2Run.units := by
  intro turns
  induction turns with
  | zero =>
      intro utf8i
      rfl
  | succ turns ih =>
      intro utf8i
      by_cases ended : utf8 utf8i = 0
      · rw [ucs2Run_of_zero ended, ucs2Loop, if_pos ended]
        rfl
      · rw [ucs2Run_of_ne_zero ended, ucs2Loop, if_neg ended, ← ucs2Step_next]
        simpa [Function.comp_def] using
          congrArg (Option.map ((ucs2Step utf8 utf8i).2 :: ·)) (ih (ucs2Step utf8 utf8i).1)

/-- The final zero included, a run writes at most one unit for a turn. -/
theorem ucs2Run_length :
    ∀ {turns utf8i : Nat} {run : Ucs2Run}, ucs2Run utf8 turns utf8i = some run →
      run.units.length ≤ turns := by
  intro turns
  induction turns with
  | zero =>
      intro utf8i run runs
      cases runs
  | succ turns ih =>
      intro utf8i run runs
      by_cases ended : utf8 utf8i = 0
      · rw [ucs2Run_of_zero ended] at runs
        cases runs
        simp
      · rw [ucs2Run_of_ne_zero ended] at runs
        obtain ⟨rest, later, rfl⟩ := Option.map_eq_some_iff.mp runs
        exact Nat.succ_le_succ (ih later)

/-- A run reads the index it starts at. -/
theorem start_mem_reads (runs : ucs2Run utf8 turns utf8i = some run) : utf8i ∈ run.reads := by
  cases turns with
  | zero => cases runs
  | succ turns =>
      by_cases ended : utf8 utf8i = 0
      · rw [ucs2Run_of_zero ended] at runs
        cases runs
        exact List.mem_singleton_self _
      · rw [ucs2Run_of_ne_zero ended] at runs
        obtain ⟨rest, -, rfl⟩ := Option.map_eq_some_iff.mp runs
        apply List.mem_append_left
        simp only [ucs2Reads]
        split_ifs <;> exact List.mem_cons_self

end Runs

/-! ## Bounds -/

/-- How far past its first byte `uefi_to_ucs2` reads for a character. -/
def sequenceReach (c0 : UInt8) : Nat :=
  if c0.toNat &&& 0x80 = 0 then 0
  else if c0.toNat &&& 0xE0 = 0xC0 then 3
  else if c0.toNat &&& 0xF0 = 0xE0 then 5
  else 0

/-- The characters of a string end where the string ends, and what is read for each is not past
the end, if a number of its bytes still belong to a character before it. -/
def charactersInside : List UInt8 → Nat → Bool
  | [], left => left == 0
  | _ :: rest, left + 1 => charactersInside rest left
  | byte :: rest, 0 =>
      decide (sequenceReach byte ≤ rest.length + 1) &&
        charactersInside rest (sequenceLength byte - 1)

/-- A turn reads up to the reach of the first byte. -/
theorem ucs2Reads_le_iff {utf8 : Memory} {utf8i bound : Nat} (start : utf8i ≤ bound) :
    (∀ index ∈ ucs2Reads utf8 utf8i, index ≤ bound) ↔
      utf8i + sequenceReach (utf8 utf8i) ≤ bound := by
  simp only [ucs2Reads, sequenceReach]
  split_ifs
  · simp [start]
  · simp only [List.mem_cons, List.not_mem_nil, or_false, forall_eq_or_imp, forall_eq]
    omega
  · simp only [List.mem_cons, List.not_mem_nil, or_false, forall_eq_or_imp, forall_eq]
    omega
  · simp [start]

section Inside

variable {memory : Memory} {str : List UInt8}

/-- Where the characters of a string are inside of it, a run from between two of them ends, and
reads no further than the final zero. -/
theorem ucs2Run_of_inside :
    ∀ {start left : Nat}, HoldsString memory start str → charactersInside str left = true →
      ∃ turns run, turns ≤ str.length + 1 ∧ ucs2Run memory turns (start + left) = some run ∧
        ∀ index ∈ run.reads, index ≤ start + str.length := by
  induction str with
  | nil =>
      intro start left holds inside
      obtain rfl : left = 0 := beq_iff_eq.mp inside
      exact ⟨1, _, le_rfl, ucs2Run_of_zero holds.ended, by simp⟩
  | cons byte rest ih =>
      intro start left holds inside
      cases left with
      | succ left =>
          obtain ⟨turns, run, bound, runs, reads⟩ := ih holds.tail inside
          rw [Nat.add_assoc, Nat.add_comm 1 left] at runs
          rw [List.length_cons]
          exact ⟨turns, run, Nat.le_succ_of_le bound, runs, fun index member => by
            have read := reads index member
            omega⟩
      | zero =>
          rw [charactersInside, Bool.and_eq_true, decide_eq_true_eq] at inside
          obtain ⟨turns, run, bound, runs, reads⟩ := ih holds.tail inside.2
          have positive := sequenceLength_pos byte
          have next : start + 1 + (sequenceLength byte - 1) =
              start + sequenceLength (memory start) := by
            rw [holds.head.1]
            omega
          have here : ∀ index ∈ ucs2Reads memory start, index ≤ start + (rest.length + 1) := by
            rw [ucs2Reads_le_iff (Nat.le_add_right _ _), holds.head.1]
            omega
          have first : ucs2Run memory (turns + 1) start = some
              ⟨ucs2Reads memory start ++ run.reads, (ucs2Step memory start).2 :: run.units⟩ := by
            rw [ucs2Run_of_ne_zero holds.head.2, ← next, runs]
            rfl
          refine ⟨turns + 1, _, Nat.succ_le_succ bound, first, fun index member => ?_⟩
          rw [List.length_cons]
          rcases List.mem_append.mp member with turn | later
          · exact here index turn
          · have read := reads index later
            omega

/-- A run from between two characters that reads no further than the final zero has the
characters inside the string. -/
theorem inside_of_ucs2Run :
    ∀ {start : Nat} (left : Nat) {turns : Nat} {run : Ucs2Run}, HoldsString memory start str →
      ucs2Run memory turns (start + left) = some run →
        (∀ index ∈ run.reads, index ≤ start + str.length) → charactersInside str left = true := by
  induction str with
  | nil =>
      intro start left turns run holds runs reads
      have first := reads _ (start_mem_reads runs)
      rw [List.length_nil] at first
      exact beq_iff_eq.mpr (by omega)
  | cons byte rest ih =>
      intro start left turns run holds runs reads
      cases left with
      | succ left =>
          rw [← Nat.add_assoc, Nat.add_right_comm] at runs
          rw [charactersInside]
          apply ih _ holds.tail runs
          intro index member
          have read := reads index member
          rw [List.length_cons] at read
          omega
      | zero =>
          cases turns with
          | zero => cases runs
          | succ turns =>
              have positive := sequenceLength_pos byte
              rw [Nat.add_zero start, ucs2Run_of_ne_zero holds.head.2] at runs
              obtain ⟨later, laterRuns, rfl⟩ := Option.map_eq_some_iff.mp runs
              rw [charactersInside, Bool.and_eq_true, decide_eq_true_eq]
              rw [List.length_cons] at reads
              constructor
              · have here := (ucs2Reads_le_iff (Nat.le_add_right _ _)).mp fun index member =>
                  reads index (List.mem_append_left _ member)
                rw [holds.head.1] at here
                omega
              · have next : start + sequenceLength (memory start) =
                    start + 1 + (sequenceLength byte - 1) := by
                  rw [holds.head.1]
                  omega
                rw [next] at laterRuns
                apply ih _ holds.tail laterRuns
                intro index member
                have read := reads index (List.mem_append_right _ member)
                omega

/-- **Bounds of `uefi_to_ucs2`.** For a string in memory, the conversion ends, reads no index
past the final zero of the string and writes at most one unit more than the string has bytes,
exactly when the characters, and what is read for each, are inside the string. -/
theorem uefiToUcs2_inside_iff (holds : HoldsString memory 0 str) :
    (∃ turns run, ucs2Run memory turns 0 = some run ∧
        (∀ index ∈ run.reads, index ≤ str.length) ∧ run.units.length ≤ str.length + 1) ↔
      charactersInside str 0 = true := by
  constructor
  · rintro ⟨turns, run, runs, reads, -⟩
    refine inside_of_ucs2Run 0 holds runs ?_
    rwa [Nat.zero_add]
  · intro inside
    obtain ⟨turns, run, bound, runs, reads⟩ := ucs2Run_of_inside holds inside
    rw [Nat.zero_add] at reads
    exact ⟨turns, run, runs, reads, (ucs2Run_length runs).trans bound⟩

end Inside

/-! ## Characters -/

/-- The unit of a code point. -/
def ucs2Unit (c : Char) : Nat := if c.toNat ≤ 0xFFFF then c.toNat else 0xFFFC

/-- The bytes of a list of code points. -/
def encodeUtf8 (chars : List Char) : List UInt8 := chars.flatMap String.utf8EncodeChar

/-- Each byte that continues a character of two or three bytes has the low bits of the byte
that is read in its place, as many places on as the character has bytes. -/
def CharacterAgrees (memory : Memory) (start : Nat) (c : Char) : Prop :=
  c.utf8Size ≤ 3 → ∀ k, 0 < k → k < c.utf8Size →
    (memory (start + c.utf8Size + k)).toNat % 64 = (memory (start + k)).toNat % 64

/-- The same for every character of a list from a place on. -/
def CharactersAgree (memory : Memory) : Nat → List Char → Prop
  | _, [] => True
  | start, c :: chars =>
      CharacterAgrees memory start c ∧ CharactersAgree memory (start + c.utf8Size) chars

instance (memory : Memory) (start : Nat) (c : Char) : Decidable (CharacterAgrees memory start c) :=
  inferInstanceAs (Decidable (c.utf8Size ≤ 3 → ∀ k, 1 ≤ k → k < c.utf8Size →
    (memory (start + c.utf8Size + k)).toNat % 64 = (memory (start + k)).toNat % 64))

instance decidableCharactersAgree (memory : Memory) :
    ∀ start chars, Decidable (CharactersAgree memory start chars)
  | _, [] => .isTrue trivial
  | start, c :: chars =>
      @instDecidableAnd _ _ (inferInstanceAs (Decidable (CharacterAgrees memory start c)))
        (decidableCharactersAgree memory (start + c.utf8Size) chars)

/-- The unit of a first byte with one more byte. -/
theorem twoByteUnit (c0 b1 : Nat) :
    ((c0 &&& 0x1F) <<< 6) ||| (b1 &&& 0x3F) = c0 % 32 * 64 + b1 % 64 := by
  rw [show c0 &&& 0x1F = c0 % 32 from and_lowMask c0 5,
    show b1 &&& 0x3F = b1 % 64 from and_lowMask b1 6,
    ← Nat.shiftLeft_add_eq_or_of_lt (Nat.mod_lt b1 (by decide)), Nat.shiftLeft_eq]

/-- The unit of a first byte with two more bytes. -/
theorem threeByteUnit (c0 b1 b2 : Nat) :
    ((c0 &&& 0xF) <<< 12) ||| ((b1 &&& 0x3F) <<< 6) ||| (b2 &&& 0x3F) =
      (c0 % 16 * 64 + b1 % 64) * 64 + b2 % 64 := by
  have upper : ((c0 % 16) <<< 12) ||| ((b1 % 64) <<< 6) = (c0 % 16 * 64 + b1 % 64) <<< 6 := by
    rw [show (c0 % 16) <<< 12 = ((c0 % 16) <<< 6) <<< 6 from (Nat.shiftLeft_add _ 6 6).symm ▸ rfl,
      ← Nat.shiftLeft_or_distrib, ← Nat.shiftLeft_add_eq_or_of_lt (Nat.mod_lt b1 (by decide)),
      Nat.shiftLeft_eq (c0 % 16)]
  rw [show c0 &&& 0xF = c0 % 16 from and_lowMask c0 4,
    show b1 &&& 0x3F = b1 % 64 from and_lowMask b1 6,
    show b2 &&& 0x3F = b2 % 64 from and_lowMask b2 6, upper,
    ← Nat.shiftLeft_add_eq_or_of_lt (Nat.mod_lt b2 (by decide)), Nat.shiftLeft_eq]

/-- The four forms of a code point. -/
theorem utf8EncodeChar_cases (c : Char) :
    (c.toNat ≤ 0x7F ∧ c.utf8Size = 1 ∧ String.utf8EncodeChar c = [UInt8.ofNat c.toNat]) ∨
    (0x7F < c.toNat ∧ c.toNat ≤ 0x7FF ∧ c.utf8Size = 2 ∧ String.utf8EncodeChar c =
      [UInt8.ofNat (c.toNat / 64 % 0x20 + 0xC0), UInt8.ofNat (c.toNat % 0x40 + 0x80)]) ∨
    (0x7FF < c.toNat ∧ c.toNat ≤ 0xFFFF ∧ c.utf8Size = 3 ∧ String.utf8EncodeChar c =
      [UInt8.ofNat (c.toNat / 4096 % 0x10 + 0xE0), UInt8.ofNat (c.toNat / 64 % 0x40 + 0x80),
        UInt8.ofNat (c.toNat % 0x40 + 0x80)]) ∨
    (0xFFFF < c.toNat ∧ c.utf8Size = 4 ∧ ∃ rest, String.utf8EncodeChar c =
      UInt8.ofNat (c.toNat / 262144 % 0x08 + 0xF0) :: rest) := by
  have one := c.utf8Size_eq_one_iff
  have two := c.utf8Size_eq_two_iff
  have three := c.utf8Size_eq_three_iff
  have four := c.utf8Size_eq_four_iff
  simp only [UInt32.le_iff_toNat_le, UInt32.lt_iff_toNat_lt] at one two three four
  by_cases first : c.toNat ≤ 0x7F
  · exact .inl ⟨first, one.mpr first, if_pos first⟩
  by_cases second : c.toNat ≤ 0x7FF
  · refine .inr (.inl ⟨Nat.lt_of_not_le first, second, two.mpr ⟨Nat.lt_of_not_le first, second⟩, ?_⟩)
    exact (if_neg first).trans (if_pos second)
  by_cases third : c.toNat ≤ 0xFFFF
  · refine .inr (.inr (.inl ⟨Nat.lt_of_not_le second, third,
      three.mpr ⟨Nat.lt_of_not_le second, third⟩, ?_⟩))
    exact (if_neg first).trans ((if_neg second).trans (if_pos third))
  · refine .inr (.inr (.inr ⟨Nat.lt_of_not_le third, four.mpr (Nat.lt_of_not_le third), ?_⟩))
    exact ⟨_, (if_neg first).trans ((if_neg second).trans (if_neg third))⟩

/-- The tests of a first byte. -/
theorem firstByte_tests {c0 : Nat} (byte : c0 < 256) :
    (c0 &&& 0x80 = 0 ↔ c0 < 0x80) ∧ (c0 &&& 0xE0 = 0xC0 ↔ c0 / 32 = 6) ∧
      (c0 &&& 0xF0 = 0xE0 ↔ c0 / 16 = 14) := by
  rw [show c0 &&& 0x80 = c0 / 2 ^ 7 % 2 ^ 1 * 2 ^ 7 from and_fieldMask c0 7 1,
    show c0 &&& 0xE0 = c0 / 2 ^ 5 % 2 ^ 3 * 2 ^ 5 from and_fieldMask c0 5 3,
    show c0 &&& 0xF0 = c0 / 2 ^ 4 % 2 ^ 4 * 2 ^ 4 from and_fieldMask c0 4 4]
  omega

section Turns

variable {memory : Memory} {start : Nat}

theorem turn_of_one (one : (memory start).toNat < 0x80) :
    sequenceLength (memory start) = 1 ∧ (ucs2Step memory start).2 = (memory start).toNat := by
  obtain ⟨ascii, -, -⟩ := firstByte_tests (memory start).toNat_lt
  rw [sequenceLength, ucs2Step, if_pos (ascii.mpr one), if_pos (ascii.mpr one)]
  exact ⟨rfl, rfl⟩

theorem turn_of_two (two : (memory start).toNat / 32 = 6) :
    sequenceLength (memory start) = 2 ∧ (ucs2Step memory start).2 =
      (memory start).toNat % 32 * 64 + (memory (start + 2 + 1)).toNat % 64 := by
  obtain ⟨ascii, second, -⟩ := firstByte_tests (memory start).toNat_lt
  have notAscii := mt ascii.mp (show ¬ (memory start).toNat < 0x80 by omega)
  rw [sequenceLength, ucs2Step, if_neg notAscii, if_neg notAscii, if_pos (second.mpr two),
    if_pos (second.mpr two)]
  exact ⟨rfl, twoByteUnit _ _⟩

theorem turn_of_three (three : (memory start).toNat / 16 = 14) :
    sequenceLength (memory start) = 3 ∧ (ucs2Step memory start).2 =
      ((memory start).toNat % 16 * 64 + (memory (start + 3 + 1)).toNat % 64) * 64 +
        (memory (start + 3 + 2)).toNat % 64 := by
  obtain ⟨ascii, second, third⟩ := firstByte_tests (memory start).toNat_lt
  have notAscii := mt ascii.mp (show ¬ (memory start).toNat < 0x80 by omega)
  have notTwo := mt second.mp (show ¬ (memory start).toNat / 32 = 6 by omega)
  rw [sequenceLength, ucs2Step, if_neg notAscii, if_neg notAscii, if_neg notTwo, if_neg notTwo,
    if_pos (third.mpr three), if_pos (third.mpr three)]
  exact ⟨rfl, threeByteUnit _ _ _⟩

theorem turn_of_four (four : 0xF0 ≤ (memory start).toNat) :
    sequenceLength (memory start) = 4 ∧ (ucs2Step memory start).2 = 0xFFFC := by
  obtain ⟨ascii, second, third⟩ := firstByte_tests (memory start).toNat_lt
  have notAscii := mt ascii.mp (show ¬ (memory start).toNat < 0x80 by omega)
  have notTwo := mt second.mp (show ¬ (memory start).toNat / 32 = 6 by omega)
  have notThree := mt third.mp (show ¬ (memory start).toNat / 16 = 14 by omega)
  rw [sequenceLength, ucs2Step, if_neg notAscii, if_neg notAscii, if_neg notTwo, if_neg notTwo,
    if_neg notThree, if_neg notThree]
  exact ⟨rfl, rfl⟩

end Turns

section Characters

variable {memory : Memory} {start : Nat} {c : Char}
  (bytes : ∀ k (inside : k < (String.utf8EncodeChar c).length),
    memory (start + k) = (String.utf8EncodeChar c)[k])
include bytes

/-- A byte of a character in memory, as a number. -/
theorem byte_toNat {k value : Nat} (here : (String.utf8EncodeChar c)[k]? = some (UInt8.ofNat value))
    (small : value < 256) : (memory (start + k)).toNat = value := by
  obtain ⟨inside, found⟩ := List.getElem?_eq_some_iff.mp here
  rw [bytes k inside, found, UInt8.toNat_ofNat']
  exact Nat.mod_eq_of_lt small

/-- A turn at a character goes past it, and writes its unit exactly when the bytes it reads
agree with those of the character. -/
theorem ucs2Step_character :
    sequenceLength (memory start) = c.utf8Size ∧
      ((ucs2Step memory start).2 = ucs2Unit c ↔ CharacterAgrees memory start c) := by
  rcases utf8EncodeChar_cases c with ⟨small, size, encoded⟩ | ⟨lower, upper, size, encoded⟩ |
      ⟨lower, upper, size, encoded⟩ | ⟨lower, size, rest, encoded⟩
  · have first : (memory start).toNat = c.toNat :=
      byte_toNat bytes (k := 0) (by rw [encoded]; rfl) (by omega)
    obtain ⟨length, unit⟩ := turn_of_one (show (memory start).toNat < 0x80 by omega)
    rw [length, unit, first, ucs2Unit, if_pos (by omega), size]
    refine ⟨rfl, iff_of_true rfl fun _ k positive below => ?_⟩
    rw [size] at below
    omega
  · have first : (memory start).toNat = c.toNat / 64 % 0x20 + 0xC0 :=
      byte_toNat bytes (k := 0) (by rw [encoded]; rfl) (by omega)
    have second : (memory (start + 1)).toNat = c.toNat % 0x40 + 0x80 :=
      byte_toNat bytes (k := 1) (by rw [encoded]; rfl) (by omega)
    obtain ⟨length, unit⟩ := turn_of_two (show (memory start).toNat / 32 = 6 by omega)
    rw [length, unit, first, ucs2Unit, if_pos (by omega), CharacterAgrees, size]
    refine ⟨rfl, ?_⟩
    constructor
    · intro same _ k positive below
      obtain rfl : k = 1 := by omega
      omega
    · intro agrees
      have read := agrees (by omega) 1 (by omega) (by omega)
      omega
  · have first : (memory start).toNat = c.toNat / 4096 % 0x10 + 0xE0 :=
      byte_toNat bytes (k := 0) (by rw [encoded]; rfl) (by omega)
    have second : (memory (start + 1)).toNat = c.toNat / 64 % 0x40 + 0x80 :=
      byte_toNat bytes (k := 1) (by rw [encoded]; rfl) (by omega)
    have third : (memory (start + 2)).toNat = c.toNat % 0x40 + 0x80 :=
      byte_toNat bytes (k := 2) (by rw [encoded]; rfl) (by omega)
    obtain ⟨length, unit⟩ := turn_of_three (show (memory start).toNat / 16 = 14 by omega)
    rw [length, unit, first, ucs2Unit, if_pos (by omega), CharacterAgrees, size]
    refine ⟨rfl, ?_⟩
    constructor
    · intro same _ k positive below
      obtain rfl | rfl : k = 1 ∨ k = 2 := by omega
      · omega
      · omega
    · intro agrees
      have read := agrees (by omega) 1 (by omega) (by omega)
      have last := agrees (by omega) 2 (by omega) (by omega)
      omega
  · have first : (memory start).toNat = c.toNat / 262144 % 0x08 + 0xF0 :=
      byte_toNat bytes (k := 0) (by rw [encoded]; rfl) (by omega)
    obtain ⟨length, unit⟩ := turn_of_four (show 0xF0 ≤ (memory start).toNat by omega)
    rw [length, unit, ucs2Unit, if_neg (by omega), size]
    refine ⟨rfl, iff_of_true rfl fun short => ?_⟩
    rw [size] at short
    omega

end Characters

/-! ## Encoded strings -/

section Encoded

variable {memory : Memory} {chars : List Char}

theorem encodeUtf8_cons (c : Char) :
    encodeUtf8 (c :: chars) = String.utf8EncodeChar c ++ encodeUtf8 chars := rfl

/-- The part of a string after a first part is a string. -/
theorem HoldsString.drop {start : Nat} {first rest : List UInt8}
    (holds : HoldsString memory start (first ++ rest)) :
    HoldsString memory (start + first.length) rest where
  bytes index inside := by
    rw [Nat.add_assoc, holds.bytes (first.length + index) (by simpa using inside)]
    simp
  ended := by
    have here := holds.ended
    rwa [List.length_append, ← Nat.add_assoc] at here
  nonzero byte member := holds.nonzero byte (List.mem_append_right _ member)

section Head

variable {start : Nat} {c : Char} (holds : HoldsString memory start (encodeUtf8 (c :: chars)))
include holds

theorem HoldsString.character {k : Nat} (inside : k < (String.utf8EncodeChar c).length) :
    memory (start + k) = (String.utf8EncodeChar c)[k] := by
  rw [encodeUtf8_cons] at holds
  rw [holds.bytes k (by rw [List.length_append]; omega), List.getElem_append_left inside]

theorem HoldsString.characters :
    HoldsString memory (start + c.utf8Size) (encodeUtf8 chars) := by
  rw [encodeUtf8_cons] at holds
  rw [← String.length_utf8EncodeChar]
  exact holds.drop

theorem HoldsString.character_ne_zero : memory start ≠ 0 := by
  have positive : 0 < (String.utf8EncodeChar c).length := by
    rw [String.length_utf8EncodeChar]
    exact c.utf8Size_pos
  have first : memory start = (String.utf8EncodeChar c)[0] := holds.character positive
  rw [first]
  rw [encodeUtf8_cons] at holds
  exact holds.nonzero _ (List.mem_append_left _ (List.getElem_mem positive))

/-- A run at a character goes on after it. -/
theorem HoldsString.ucs2Run_eq {turns : Nat} :
    ucs2Run memory (turns + 1) start =
      (ucs2Run memory turns (start + c.utf8Size)).map fun rest =>
        ⟨ucs2Reads memory start ++ rest.reads, (ucs2Step memory start).2 :: rest.units⟩ := by
  rw [ucs2Run_of_ne_zero holds.character_ne_zero,
    (ucs2Step_character fun _ inside => holds.character inside).1]

end Head

/-- The conversion of an encoded string ends. -/
theorem ucs2Run_encoded : ∀ {start : Nat}, HoldsString memory start (encodeUtf8 chars) →
    ∃ turns run, ucs2Run memory turns start = some run := by
  induction chars with
  | nil =>
      intro start holds
      exact ⟨1, _, ucs2Run_of_zero holds.ended⟩
  | cons c chars ih =>
      intro start holds
      obtain ⟨turns, run, runs⟩ := ih holds.characters
      exact ⟨turns + 1, _, by rw [holds.ucs2Run_eq, runs]; rfl⟩

/-- A run writes the units of the characters exactly when the bytes it reads agree with those
of the characters. -/
theorem ucs2Run_units_iff :
    ∀ {start turns : Nat} {run : Ucs2Run}, HoldsString memory start (encodeUtf8 chars) →
      ucs2Run memory turns start = some run →
        (run.units = chars.map ucs2Unit ++ [0] ↔ CharactersAgree memory start chars) := by
  induction chars with
  | nil =>
      intro start turns run holds runs
      cases turns with
      | zero => cases runs
      | succ turns =>
          have ended : memory start = 0 := holds.ended
          rw [ucs2Run_of_zero ended] at runs
          cases runs
          simp [CharactersAgree]
  | cons c chars ih =>
      intro start turns run holds runs
      cases turns with
      | zero => cases runs
      | succ turns =>
          rw [holds.ucs2Run_eq] at runs
          obtain ⟨rest, later, rfl⟩ := Option.map_eq_some_iff.mp runs
          rw [List.map_cons, List.cons_append, List.cons.injEq, CharactersAgree,
            (ucs2Step_character fun _ inside => holds.character inside).2,
            ih holds.characters later]

/-- **Decoding of paths.** For a string that encodes code points, none of them zero, the
conversion ends and writes one unit for each code point, and a final zero, exactly when the
bytes it reads after each character of two or three bytes agree with those of the
character. -/
theorem uefiToUcs2_decodes_iff (holds : HoldsString memory 0 (encodeUtf8 chars)) :
    (∃ turns run, ucs2Run memory turns 0 = some run ∧ run.units = chars.map ucs2Unit ++ [0]) ↔
      CharactersAgree memory 0 chars := by
  constructor
  · rintro ⟨turns, run, runs, units⟩
    exact (ucs2Run_units_iff holds runs).mp units
  · intro agrees
    obtain ⟨turns, run, runs⟩ := ucs2Run_encoded holds
    exact ⟨turns, run, runs, (ucs2Run_units_iff holds runs).mpr agrees⟩

end Encoded

/-! ## Two strings -/

/-- A memory that holds a string, and zeros after it. -/
def stringMemory (str : List UInt8) : Memory := fun index => str.getD index 0

theorem stringMemory_holds {str : List UInt8} (nonzero : ∀ byte ∈ str, byte ≠ 0) :
    HoldsString (stringMemory str) 0 str where
  bytes index inside := by simp [stringMemory, inside]
  ended := by simp [stringMemory]
  nonzero := nonzero

/-- Characters of one to four bytes. Each `é` and `€` is followed by bytes with the low bits of
its own: `é` by another and by `/i`, `€` by another and by `/B,`. -/
def mixedPath : List Char := ['é', 'é', '/', 'i', '€', '€', '/', 'B', ',', '😀']

theorem uefiToUcs2_decodes_mixed :
    ∃ turns run, ucs2Run (stringMemory (encodeUtf8 mixedPath)) turns 0 = some run ∧
      run.units =
        [0xE9, 0xE9, 0x2F, 0x69, 0x20AC, 0x20AC, 0x2F, 0x42, 0x2C, 0xFFFC, 0] := by
  have holds : HoldsString (stringMemory (encodeUtf8 mixedPath)) 0 (encodeUtf8 mixedPath) :=
    stringMemory_holds (nonzero_of_all (by decide))
  have agrees : CharactersAgree (stringMemory (encodeUtf8 mixedPath)) 0 mixedPath := by decide
  exact (uefiToUcs2_decodes_iff holds).mpr agrees

theorem uefiToUcs2_inside_ascii :
    ∃ turns run, ucs2Run (stringMemory [0x61, 0xC3, 0xA9, 0x62]) turns 0 = some run ∧
      (∀ index ∈ run.reads, index ≤ 4) ∧ run.units.length ≤ 5 :=
  (uefiToUcs2_inside_iff (stringMemory_holds (nonzero_of_all (by decide)))).mpr (by decide)

/-- The path `éab`: the unit of `é` is made with the low bits of `b`. -/
theorem uefiToUcs2_misread :
    HoldsString (stringMemory (encodeUtf8 ['é', 'a', 'b'])) 0 (encodeUtf8 ['é', 'a', 'b']) ∧
      (∀ c ∈ ['é', 'a', 'b'], c ≠ Char.ofNat 0) ∧
      (ucs2Run (stringMemory (encodeUtf8 ['é', 'a', 'b'])) 4 0).map Ucs2Run.units =
        some [0xE2, 0x61, 0x62, 0] ∧
      ¬ ∃ turns run, ucs2Run (stringMemory (encodeUtf8 ['é', 'a', 'b'])) turns 0 = some run ∧
        run.units = ['é', 'a', 'b'].map ucs2Unit ++ [0] := by
  have holds : HoldsString (stringMemory (encodeUtf8 ['é', 'a', 'b'])) 0
      (encodeUtf8 ['é', 'a', 'b']) := stringMemory_holds (nonzero_of_all (by decide))
  refine ⟨holds, by simp, by decide, ?_⟩
  rintro ⟨turns, run, runs, units⟩
  have agrees := ((ucs2Run_units_iff holds runs).mp units).1 (by decide) 1 (by decide) (by decide)
  exact absurd agrees (by decide)

/-- The path `é`: the byte after its final zero is read. -/
theorem uefiToUcs2_overread :
    HoldsString (stringMemory [0xC3, 0xA9]) 0 [0xC3, 0xA9] ∧
      (ucs2Run (stringMemory [0xC3, 0xA9]) 3 0).map Ucs2Run.reads = some [0, 3, 2] ∧
      ¬ ∃ turns run, ucs2Run (stringMemory [0xC3, 0xA9]) turns 0 = some run ∧
        (∀ index ∈ run.reads, index ≤ [0xC3, (0xA9 : UInt8)].length) ∧ run.units.length ≤ 3 := by
  have holds : HoldsString (stringMemory [0xC3, 0xA9]) 0 [0xC3, 0xA9] :=
    stringMemory_holds (nonzero_of_all (by decide))
  refine ⟨holds, by decide, ?_⟩
  rintro ⟨turns, run, runs, reads, -⟩
  have inside := inside_of_ucs2Run 0 holds runs (by rwa [Nat.zero_add])
  exact absurd inside (by decide)

end VineyardLoader
