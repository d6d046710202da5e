import Mathlib.Data.List.TakeWhile
import VineyardLoader.Lib.Format

/-!
# How conversions are written

A conversion is written as flags, a width, a precision and a length modifier, with its specifier
after them (`ConversionText`). Where the specifier is none of these, `specOf` gives back what was
written (`specOf_text`), and all that `specOf` takes from a format has been written in this way
(`exists_text`).

A conversion is supported if the switch knows its specifier with its length modifier, which does
not depend on the arguments (`convert_isSome_iff`).
-/

set_option autoImplicit false

namespace VineyardLoader

/-- A list that does not start with a byte of some kind. -/
def StartsWithout (kind : UInt8 → Prop) (rest : List UInt8) : Prop := ∀ c ∈ rest.head?, ¬ kind c

theorem startsWithout_nil {kind : UInt8 → Prop} : StartsWithout kind [] := by
  rintro _ ⟨⟩

theorem StartsWithout.append {kind : UInt8 → Prop} {first rest : List UInt8}
    (begins : StartsWithout kind first) (after : StartsWithout kind rest) :
    StartsWithout kind (first ++ rest) := by
  cases first with
  | nil => exact after
  | cons c first => exact begins

theorem StartsWithout.headD_ne {c : UInt8} {rest : List UInt8} (starts : StartsWithout (· = c) rest)
    (nonzero : c ≠ 0) : rest.headD 0 ≠ c := by
  cases rest with
  | nil => exact nonzero.symm
  | cons first rest => exact starts first rfl

theorem startsWithout_dropWhile (kind : UInt8 → Prop) [DecidablePred kind] (rest : List UInt8) :
    StartsWithout kind (rest.dropWhile fun c => decide (kind c)) := by
  intro c head held
  have stopped := List.head?_dropWhile_not (fun c => decide (kind c)) rest
  rw [Option.mem_def.mp head] at stopped
  exact of_decide_eq_false stopped held

theorem mem_takeWhile_kind (kind : UInt8 → Prop) [DecidablePred kind] (rest : List UInt8) :
    ∀ c ∈ rest.takeWhile fun c => decide (kind c), kind c := by
  intro c member
  have held := List.mem_takeWhile_imp member
  exact of_decide_eq_true held

/-! ## Flags -/

/-- A byte that is a flag. -/
def IsFlag (c : UInt8) : Prop := c = 0x23 ∨ c = 0x2D ∨ c = 0x2B ∨ c = 0x20 ∨ c = 0x30

instance : DecidablePred IsFlag := fun _ => inferInstanceAs (Decidable (_ ∨ _ ∨ _ ∨ _ ∨ _))

/-- The flags among bytes. -/
def Flags.ofBytes (bytes : List UInt8) : Flags where
  hash := decide (0x23 ∈ bytes)
  minus := decide (0x2D ∈ bytes)
  plus := decide (0x2B ∈ bytes)
  space := decide (0x20 ∈ bytes)
  zero := decide (0x30 ∈ bytes)

/-- The flags of two kinds together. -/
def Flags.union (first second : Flags) : Flags where
  hash := first.hash || second.hash
  minus := first.minus || second.minus
  plus := first.plus || second.plus
  space := first.space || second.space
  zero := first.zero || second.zero

theorem Flags.set?_eq_none {flags : Flags} {c : UInt8} (other : ¬ IsFlag c) :
    flags.set? c = Option.none := by
  simp only [IsFlag, not_or] at other
  rw [Flags.set?, if_neg other.1, if_neg other.2.1, if_neg other.2.2.1, if_neg other.2.2.2.1,
    if_neg other.2.2.2.2]

/-- Setting a flag, and then others. -/
theorem Flags.set?_union (flags : Flags) {c : UInt8} (flag : IsFlag c) (bytes : List UInt8) :
    ∃ more, flags.set? c = some more ∧
      more.union (Flags.ofBytes bytes) = flags.union (Flags.ofBytes (c :: bytes)) := by
  obtain ⟨hash, minus, plus, space, zero⟩ := flags
  rcases flag with rfl | rfl | rfl | rfl | rfl <;>
    exact ⟨_, rfl, by simp [Flags.union, Flags.ofBytes]⟩

theorem takeFlags_append {bytes rest : List UInt8} (flags : ∀ c ∈ bytes, IsFlag c)
    (ends : StartsWithout IsFlag rest) :
    ∀ before : Flags, takeFlags (bytes ++ rest) before =
      (before.union (Flags.ofBytes bytes), rest) := by
  induction bytes with
  | nil =>
      intro before
      have same : before.union (Flags.ofBytes []) = before := by
        simp [Flags.union, Flags.ofBytes]
      rw [same, List.nil_append]
      cases rest with
      | nil => rfl
      | cons c rest => rw [takeFlags, Flags.set?_eq_none (ends c rfl)]
  | cons c bytes ih =>
      intro before
      obtain ⟨more, set, same⟩ := Flags.set?_union before (flags c List.mem_cons_self) bytes
      rw [List.cons_append, takeFlags, set, ← same]
      exact ih (fun other member => flags other (List.mem_cons_of_mem c member)) more

theorem Flags.none_union (flags : Flags) : Flags.none.union flags = flags := by
  simp [Flags.union, Flags.none]

/-! ## Numbers -/

/-- The number that decimal digits stand for. -/
def decimal (digits : List UInt8) : Nat :=
  digits.foldl (fun number c => number * 10 + (c.toNat - 0x30)) 0

theorem addDigit_mod (number : Nat) (c : UInt8) :
    addDigit (number % 2 ^ 64) c = (number * 10 + (c.toNat - 0x30)) % 2 ^ 64 := by
  rw [addDigit]
  omega

theorem takeNumber_append {digits rest : List UInt8} (valid : ∀ c ∈ digits, IsDigit c)
    (ends : StartsWithout IsDigit rest) :
    ∀ number : Nat, takeNumber (digits ++ rest) (number % 2 ^ 64) =
      (digits.foldl (fun number c => number * 10 + (c.toNat - 0x30)) number % 2 ^ 64, rest) := by
  induction digits with
  | nil =>
      intro number
      cases rest with
      | nil => rfl
      | cons c rest =>
          rw [List.nil_append, takeNumber, if_neg (ends c rfl)]
          rfl
  | cons c digits ih =>
      intro number
      rw [List.cons_append, takeNumber, if_pos (valid c List.mem_cons_self), addDigit_mod,
        ih (fun other member => valid other (List.mem_cons_of_mem c member))]
      rfl

theorem takeNumber_decimal {digits rest : List UInt8} (valid : ∀ c ∈ digits, IsDigit c)
    (ends : StartsWithout IsDigit rest) :
    takeNumber (digits ++ rest) 0 = (decimal digits % 2 ^ 64, rest) :=
  takeNumber_append valid ends 0

/-! ## Length modifiers -/

/-- How a length modifier is written. -/
def lengthName : Length → List UInt8
  | .shortShort => [0x68, 0x68]
  | .short => [0x68]
  | .default => []
  | .long => [0x6C]
  | .longLong => [0x6C, 0x6C]
  | .longDouble => [0x4C]
  | .intmaxT => [0x6A]
  | .sizeT => [0x7A]
  | .ptrdiffT => [0x74]

/-- A byte that a length modifier starts with. -/
def StartsLength (c : UInt8) : Prop :=
  c = 0x68 ∨ c = 0x6C ∨ c = 0x4C ∨ c = 0x6A ∨ c = 0x7A ∨ c = 0x74

instance : DecidablePred StartsLength :=
  fun _ => inferInstanceAs (Decidable (_ ∨ _ ∨ _ ∨ _ ∨ _ ∨ _))

/-- A kind of the bytes that a length modifier starts with. -/
theorem forall_startsLength {kind : UInt8 → Prop}
    (each : kind 0x68 ∧ kind 0x6C ∧ kind 0x4C ∧ kind 0x6A ∧ kind 0x7A ∧ kind 0x74) :
    ∀ c, StartsLength c → kind c := by
  obtain ⟨h, l, big, j, z, t⟩ := each
  rintro c (rfl | rfl | rfl | rfl | rfl | rfl) <;> assumption

theorem takeLength_append (length : Length) {rest : List UInt8}
    (ends : StartsWithout StartsLength rest) :
    takeLength (lengthName length ++ rest) = (length, rest) := by
  cases rest with
  | nil => cases length <;> rfl
  | cons c rest =>
      have other := ends c rfl
      simp only [StartsLength, not_or, ← ne_eq] at other
      cases length <;>
        simp [takeLength, pickLength, lengthModifiers, CString.ofBytes, lengthName, other.1.symm,
          other.2.1.symm, other.2.2.1.symm, other.2.2.2.1.symm, other.2.2.2.2.1.symm,
          other.2.2.2.2.2.symm]

/-- What is taken is a length modifier as it is written. -/
theorem takeLength_split (rest : List UInt8) :
    rest = lengthName (takeLength rest).1 ++ (takeLength rest).2 := by
  have picked : ∀ (table : List (CString × Length)) (length : Length) (count : Nat),
      (∀ entry ∈ table, entry.1.bytes = lengthName entry.2) →
        lengthName length <+: rest ∧ (lengthName length).length = count →
          lengthName (pickLength rest table length count).1 <+: rest ∧
            (lengthName (pickLength rest table length count).1).length =
              (pickLength rest table length count).2 := by
    intro table
    induction table with
    | nil =>
        intro length count _ holds
        exact holds
    | cons entry table ih =>
        intro length count named holds
        obtain ⟨name, other⟩ := entry
        have here : name.bytes = lengthName other := named _ List.mem_cons_self
        have later := fun entry member => named entry (List.mem_cons_of_mem _ member)
        rw [pickLength]
        split
        · exact ih length count later holds
        · split
          · rename_i found
            apply ih other _ later
            rw [← here]
            exact ⟨List.isPrefixOf_iff_prefix.mp found, rfl⟩
          · exact ih length count later holds
  have named : ∀ entry ∈ lengthModifiers, entry.1.bytes = lengthName entry.2 := by
    simp [lengthModifiers, CString.ofBytes, lengthName]
  obtain ⟨⟨left, split⟩, count⟩ := picked lengthModifiers .default 0 named ⟨List.nil_prefix, rfl⟩
  have taken : rest.drop (pickLength rest lengthModifiers .default 0).2 = left := by
    rw [← count]
    generalize lengthName (pickLength rest lengthModifiers .default 0).1 = name at split
    rw [← split, List.drop_left]
  rw [takeLength]
  simp only [taken, split]

/-! ## Conversions -/

/-- What stands between the percent sign of a conversion and its specifier. -/
structure ConversionText where
  flags : List UInt8
  digits : List UInt8
  star : Bool
  precision : Option (List UInt8)
  length : Length
  isFlag : ∀ c ∈ flags, IsFlag c
  isWidth : StartsWithout IsFlag digits ∧ ∀ c ∈ digits, IsDigit c
  isPrecision : ∀ digits ∈ precision, ∀ c ∈ digits, IsDigit c

namespace ConversionText

variable (text : ConversionText)

/-- The star of the width, if there is one. -/
def starBytes : List UInt8 := if text.star then [0x2A] else []

/-- The point and the digits of the precision. -/
def precisionBytes : List UInt8 :=
  match text.precision with
  | some digits => 0x2E :: digits
  | none => []

/-- How a conversion is written. -/
def bytes : List UInt8 :=
  text.flags ++ (text.digits ++ (text.starBytes ++ (text.precisionBytes ++ lengthName text.length)))

/-- The precision that is read. -/
def readPrecision : Nat :=
  match text.precision with
  | some digits => decimal digits % 2 ^ 64
  | none => noPrecision

/-- The width that is read. -/
def readWidth (arguments : Arguments) (args : Nat) : Nat :=
  if text.star then sizeOfInt (arguments.word args) else decimal text.digits % 2 ^ 64

/-- The argument after the width. -/
def argsAfter (args : Nat) : Nat := if text.star then args + 1 else args

/-- What is read. -/
def spec (arguments : Arguments) (args : Nat) : Spec where
  flags := Flags.ofBytes text.flags
  width := text.readWidth arguments args
  precision := text.readPrecision
  length := text.length

/-- No digits are a width. -/
theorem isWidth_nil : StartsWithout IsFlag [] ∧ ∀ c ∈ ([] : List UInt8), IsDigit c :=
  ⟨startsWithout_nil, List.forall_mem_nil _⟩

/-- A specifier alone. -/
def plain : ConversionText where
  flags := []
  digits := []
  star := false
  precision := none
  length := .default
  isFlag := List.forall_mem_nil _
  isWidth := isWidth_nil
  isPrecision := by rintro _ ⟨⟩

end ConversionText

/-- A byte that stands for a part of a conversion before its specifier. -/
def IsPart (c : UInt8) : Prop :=
  IsFlag c ∨ IsDigit c ∨ c = 0x2A ∨ c = 0x2E ∨ StartsLength c

instance : DecidablePred IsPart := fun _ => inferInstanceAs (Decidable (_ ∨ _ ∨ _ ∨ _ ∨ _))

section Parts

variable {kind : UInt8 → Prop} {text : ConversionText} {rest : List UInt8}

theorem StartsWithout.mono {more : UInt8 → Prop} (starts : StartsWithout more rest)
    (less : ∀ c, kind c → more c) : StartsWithout kind rest :=
  fun c head held => starts c head (less c held)

theorem startsWithout_lengthName (length : Length) (other : ∀ c, StartsLength c → ¬ kind c) :
    StartsWithout kind (lengthName length) := by
  intro c head held
  refine other c ?_ held
  cases length <;> cases head <;> decide

theorem startsWithout_precisionBytes (other : ¬ kind 0x2E) :
    StartsWithout kind text.precisionBytes := by
  intro c head
  rw [ConversionText.precisionBytes] at head
  split at head
  · cases head
    exact other
  · cases head

theorem startsWithout_starBytes (other : ¬ kind 0x2A) : StartsWithout kind text.starBytes := by
  intro c head
  rw [ConversionText.starBytes] at head
  split at head
  · cases head
    exact other
  · cases head

/-- What is written after the width starts with no byte of another part. -/
theorem startsWithout_afterStar (parts : StartsWithout IsPart rest)
    (part : ∀ c, kind c → IsPart c) (point : ¬ kind 0x2E) (other : ∀ c, StartsLength c → ¬ kind c) :
    StartsWithout kind (text.precisionBytes ++ (lengthName text.length ++ rest)) := by
  apply (startsWithout_precisionBytes point).append
  apply (startsWithout_lengthName text.length other).append
  exact parts.mono part

theorem takePrecision_text (parts : StartsWithout IsPart rest) :
    takePrecision (text.precisionBytes ++ (lengthName text.length ++ rest)) =
      (text.readPrecision, lengthName text.length ++ rest) := by
  have digits : StartsWithout IsDigit (lengthName text.length ++ rest) := by
    apply (startsWithout_lengthName text.length (forall_startsLength (by decide))).append
    exact parts.mono fun c digit => .inr (.inl digit)
  have point : StartsWithout (· = 0x2E) (lengthName text.length ++ rest) := by
    apply (startsWithout_lengthName text.length (forall_startsLength (by decide))).append
    exact parts.mono fun c same => .inr (.inr (.inr (.inl same)))
  rw [takePrecision, ConversionText.precisionBytes, ConversionText.readPrecision]
  cases written : text.precision with
  | some number =>
      simp only [List.cons_append, List.headD_cons, if_true, List.tail_cons]
      exact takeNumber_decimal (text.isPrecision number written) digits
  | none =>
      simp only [List.nil_append]
      rw [if_neg (point.headD_ne (by decide))]

theorem takeWidth_text (arguments : Arguments) (args : Nat) (parts : StartsWithout IsPart rest) :
    takeWidth arguments args
        (text.digits ++ (text.starBytes ++
          (text.precisionBytes ++ (lengthName text.length ++ rest)))) =
      (text.readWidth arguments args,
        text.precisionBytes ++ (lengthName text.length ++ rest), text.argsAfter args) := by
  have digits : StartsWithout IsDigit
      (text.precisionBytes ++ (lengthName text.length ++ rest)) :=
    startsWithout_afterStar parts (fun c digit => .inr (.inl digit)) (by decide)
      (forall_startsLength (by decide))
  have star : StartsWithout (· = 0x2A)
      (text.precisionBytes ++ (lengthName text.length ++ rest)) :=
    startsWithout_afterStar parts (fun c same => .inr (.inr (.inl same))) (by decide)
      (forall_startsLength (by decide))
  have stars : StartsWithout IsDigit text.starBytes := startsWithout_starBytes (by decide)
  rw [takeWidth, takeNumber_decimal text.isWidth.2 (stars.append digits)]
  simp only [ConversionText.starBytes, ConversionText.readWidth, ConversionText.argsAfter]
  by_cases starred : text.star
  · simp only [if_pos starred, List.singleton_append, List.headD_cons, List.tail_cons, if_true]
  · simp only [if_neg starred, List.nil_append, if_neg (star.headD_ne (by decide))]

/-- **What is written is read**, where the specifier is none of the parts before it. -/
theorem specOf_text (arguments : Arguments) (args : Nat) (parts : StartsWithout IsPart rest) :
    specOf arguments args (text.bytes ++ rest) =
      (text.spec arguments args, rest, text.argsAfter args) := by
  have flags : StartsWithout IsFlag
      (text.digits ++ (text.starBytes ++
        (text.precisionBytes ++ (lengthName text.length ++ rest)))) := by
    apply text.isWidth.1.append
    apply (startsWithout_starBytes (by decide)).append
    exact startsWithout_afterStar parts (fun c flag => .inl flag) (by decide)
      (forall_startsLength (by decide))
  have length : StartsWithout StartsLength rest :=
    parts.mono fun c starts => .inr (.inr (.inr (.inr starts)))
  rw [ConversionText.bytes, List.append_assoc, List.append_assoc, List.append_assoc,
    List.append_assoc, specOf, takeFlags_append text.isFlag flags]
  simp only [takeWidth_text arguments args parts, takePrecision_text parts,
    takeLength_append text.length length, Flags.none_union, ConversionText.spec]

/-- No part of a conversion starts with a percent sign. -/
theorem startsWithout_percent (text : ConversionText) :
    StartsWithout (· = 0x25) text.bytes := by
  have flags : StartsWithout (· = 0x25) text.flags := by
    rintro c head rfl
    exact absurd (text.isFlag _ (List.mem_of_mem_head? head)) (by decide)
  have digits : StartsWithout (· = 0x25) text.digits := by
    rintro c head rfl
    exact absurd (text.isWidth.2 _ (List.mem_of_mem_head? head)) (by decide)
  rw [ConversionText.bytes]
  apply flags.append
  apply digits.append
  apply (startsWithout_starBytes (by decide)).append
  apply (startsWithout_precisionBytes (by decide)).append
  exact startsWithout_lengthName text.length (forall_startsLength (by decide))

end Parts

/-! ## What is taken -/

theorem takeFlags_split (rest : List UInt8) :
    ∃ bytes left, rest = bytes ++ left ∧ (∀ c ∈ bytes, IsFlag c) ∧ StartsWithout IsFlag left ∧
      takeFlags rest Flags.none = (Flags.ofBytes bytes, left) := by
  have split := List.takeWhile_append_dropWhile (p := fun c => decide (IsFlag c)) (l := rest)
  have taken := takeFlags_append (mem_takeWhile_kind IsFlag rest)
    (startsWithout_dropWhile IsFlag rest) Flags.none
  rw [split, Flags.none_union] at taken
  exact ⟨_, _, split.symm, mem_takeWhile_kind IsFlag rest, startsWithout_dropWhile IsFlag rest, taken⟩

theorem takeNumber_split (rest : List UInt8) :
    ∃ digits left, rest = digits ++ left ∧ (∀ c ∈ digits, IsDigit c) ∧
      takeNumber rest 0 = (decimal digits % 2 ^ 64, left) := by
  have split := List.takeWhile_append_dropWhile (p := fun c => decide (IsDigit c)) (l := rest)
  have taken := takeNumber_decimal (mem_takeWhile_kind IsDigit rest)
    (startsWithout_dropWhile IsDigit rest)
  rw [split] at taken
  exact ⟨_, _, split.symm, mem_takeWhile_kind IsDigit rest, taken⟩

/-- A byte that is the first is taken off. -/
theorem cons_tail_of_headD {c : UInt8} {rest : List UInt8} (head : rest.headD 0 = c)
    (nonzero : c ≠ 0) : rest = c :: rest.tail := by
  cases rest with
  | nil => exact absurd head.symm nonzero
  | cons first rest =>
      rw [List.headD_cons] at head
      rw [head, List.tail_cons]

theorem takePrecision_split (rest : List UInt8) :
    ∃ (precision : Option (List UInt8)) (left : List UInt8),
      (∀ digits ∈ precision, ∀ c ∈ digits, IsDigit c) ∧
      rest = (match precision with
        | some digits => 0x2E :: digits
        | none => []) ++ left ∧
      takePrecision rest = (match precision with
        | some digits => decimal digits % 2 ^ 64
        | none => noPrecision, left) := by
  by_cases point : rest.headD 0 = 0x2E
  · obtain ⟨digits, left, split, isDigit, taken⟩ := takeNumber_split rest.tail
    refine ⟨some digits, left, ?_, ?_, ?_⟩
    · rintro _ ⟨⟩
      exact isDigit
    · rw [cons_tail_of_headD point (by decide), split]
      rfl
    · rw [takePrecision, if_pos point, taken]
  · refine ⟨none, rest, ?_, rfl, ?_⟩
    · rintro _ ⟨⟩
    · rw [takePrecision, if_neg point]

theorem takeWidth_split (rest : List UInt8) :
    ∃ (digits : List UInt8) (star : Bool) (left : List UInt8), (∀ c ∈ digits, IsDigit c) ∧
      rest = digits ++ ((if star then [0x2A] else []) ++ left) ∧
      ∀ arguments args, takeWidth arguments args rest =
        (if star then sizeOfInt (arguments.word args) else decimal digits % 2 ^ 64, left,
          if star then args + 1 else args) := by
  obtain ⟨digits, left, split, isDigit, taken⟩ := takeNumber_split rest
  by_cases star : left.headD 0 = 0x2A
  · refine ⟨digits, true, left.tail, isDigit, ?_, ?_⟩
    · rw [split, if_pos rfl, List.singleton_append, ← cons_tail_of_headD star (by decide)]
    · intro arguments args
      rw [takeWidth, taken]
      simp only [star, if_true]
  · refine ⟨digits, false, left, isDigit, ?_, ?_⟩
    · rw [split]
      rfl
    · intro arguments args
      rw [takeWidth, taken]
      simp only [star, if_false, Bool.false_eq_true]

/-- **All that is taken was written as a conversion.** -/
theorem exists_text (rest : List UInt8) :
    ∃ (text : ConversionText) (left : List UInt8), rest = text.bytes ++ left ∧
      ∀ arguments args,
        specOf arguments args rest = (text.spec arguments args, left, text.argsAfter args) := by
  obtain ⟨flags, afterFlags, flagsSplit, isFlag, ends, flagsTaken⟩ := takeFlags_split rest
  obtain ⟨digits, star, afterWidth, isDigit, widthSplit, widthTaken⟩ := takeWidth_split afterFlags
  obtain ⟨precision, afterPrecision, isPrecision, precisionSplit, precisionTaken⟩ :=
    takePrecision_split afterWidth
  have starts : StartsWithout IsFlag digits := by
    intro c head
    apply ends c
    rw [widthSplit, List.head?_append, Option.mem_def.mp head]
    rfl
  refine ⟨⟨flags, digits, star, precision, (takeLength afterPrecision).1, isFlag,
    ⟨starts, isDigit⟩, isPrecision⟩, (takeLength afterPrecision).2, ?_, ?_⟩
  · rw [ConversionText.bytes, List.append_assoc, List.append_assoc, List.append_assoc,
      List.append_assoc, flagsSplit]
    congr 1
    rw [widthSplit]
    congr 2
    rw [precisionSplit]
    congr 1
    exact takeLength_split afterPrecision
  · intro arguments args
    rw [specOf, flagsTaken]
    simp only [widthTaken, precisionTaken]
    rfl

/-! ## Supported conversions -/

/-- The specifiers that are known with a length modifier. -/
def Supported (length : Length) (c : UInt8) : Prop :=
  c = 0x25 ∨ c = 0x73 ∨ c = 0x63 ∨ c = 0x70 ∨ IsInteger c ∧ length ≠ .longDouble

instance (length : Length) (c : UInt8) : Decidable (Supported length c) :=
  inferInstanceAs (Decidable (_ ∨ _ ∨ _ ∨ _ ∨ _ ∧ _))

theorem vaBits_eq_none_iff (length : Length) : vaBits length = none ↔ length = .longDouble := by
  cases length <;> decide

/-- **The switch knows the supported conversions**, whatever the arguments are. -/
theorem convert_isSome_iff (arguments : Arguments) (spec : Spec) (args : Nat) (c : UInt8) :
    (convert arguments spec args c).isSome ↔ Supported spec.length c := by
  rw [convert, Supported]
  by_cases percent : c = 0x25
  · simp [percent]
  by_cases string : c = 0x73
  · simp [string]
  by_cases character : c = 0x63
  · simp [character]
  by_cases integer : IsInteger c
  · rw [if_neg percent, if_neg string, if_neg character, if_pos integer, Option.isSome_map,
      integerValue]
    by_cases pointer : c = 0x70
    · simp [pointer]
    · rw [if_neg pointer]
      cases size : vaBits spec.length with
      | none =>
          rw [vaBits_eq_none_iff] at size
          simp [percent, string, character, pointer, size]
      | some bits =>
          have other : spec.length ≠ .longDouble := by
            rw [ne_eq, ← vaBits_eq_none_iff, size]
            exact Option.some_ne_none bits
          by_cases signed : c = 0x69 ∨ c = 0x64
          · simp [signed, integer, other]
          · simp [signed, integer, other]
  · have notPointer : c ≠ 0x70 := by
      rintro rfl
      exact integer (by decide)
    simp [percent, string, character, integer, notPointer]

theorem Supported.not_isPart {length : Length} {c : UInt8} (supported : Supported length c) :
    ¬ IsPart c := by
  rcases supported with rfl | rfl | rfl | rfl | ⟨rfl | rfl | rfl | rfl | rfl | rfl | rfl, -⟩ <;>
    decide

theorem Supported.ne_zero {length : Length} {c : UInt8} (supported : Supported length c) :
    c ≠ 0 := by
  rintro rfl
  exact absurd supported (by cases length <;> decide)

/-- The step from a conversion that is known, whatever comes after it. -/
theorem step_conversion (arguments : Arguments) (args : Nat) {text : ConversionText} {c : UInt8}
    {emission : Emission}
    (known : convert arguments (text.spec arguments args) (text.argsAfter args) c = some emission)
    (supported : Supported text.length c) (single : (text.bytes ++ [c]).head? ≠ some 0x25)
    (rest : List UInt8) :
    step arguments args false (0x25 :: (text.bytes ++ c :: rest)) =
      ⟨emission, rest, false, some ⟨text.spec arguments args, text.argsAfter args, c⟩⟩ := by
  have parts : StartsWithout IsPart (c :: rest) := by
    rintro _ ⟨⟩
    exact supported.not_isPart
  have notEscaped : (text.bytes ++ c :: rest).headD 0 ≠ 0x25 := by
    intro escaped
    apply single
    cases written : text.bytes with
    | nil =>
        rw [written] at escaped
        exact congrArg some escaped
    | cons first others =>
        rw [written] at escaped
        exact congrArg some escaped
  rw [step, if_neg (by decide), if_neg notEscaped, if_neg Bool.false_ne_true]
  simp only [conversionStep, specOf_text arguments args parts, List.headD_cons, known,
    List.tail_cons]

/-- The conversion that is read. -/
def ConversionText.conversion (text : ConversionText) (arguments : Arguments) (args : Nat)
    (c : UInt8) : Conversion where
  spec := text.spec arguments args
  args := text.argsAfter args
  specifier := c

/-- **A turn from a conversion that is supported** prints it as the switch says. -/
theorem turn_conversion (arguments : Arguments) (args : Nat) {format : CString} {cursor : Nat}
    {text : ConversionText} {c : UInt8} {rest : List UInt8}
    (here : format.At cursor (0x25 :: (text.bytes ++ c :: rest)))
    (supported : Supported text.length c) (single : c ≠ 0x25) :
    ∃ t, turn format arguments cursor args false = some t ∧
      convert arguments (text.conversion arguments args c).spec
        (text.conversion arguments args c).args (text.conversion arguments args c).specifier =
          some t.emission := by
  obtain ⟨emission, known⟩ := Option.isSome_iff_exists.mp
    ((convert_isSome_iff arguments (text.spec arguments args) (text.argsAfter args) c).mpr supported)
  have head : (text.bytes ++ [c]).head? ≠ some 0x25 := by
    have starts : StartsWithout (· = 0x25) (text.bytes ++ [c]) :=
      (startsWithout_percent text).append (by rintro _ ⟨⟩; exact single)
    intro escaped
    exact starts _ escaped rfl
  obtain ⟨next, run, -⟩ := turn_eq arguments args false here
  rw [step_conversion arguments args known supported head] at run
  exact ⟨_, run, known⟩

end VineyardLoader
