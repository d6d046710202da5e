import VineyardLoader.Lib.Strings

/-!
# Formatted output

`vcbprintf` goes through a format and gives what it prints to a callback, string by string. A
turn of its main loop prints a block of text or one conversion. A conversion that it does not
know is printed as text, and from then on so is every other one.

The format is read through its index, so a turn has a value only if nothing past the final zero
is read and its loops end within as many turns as the format has bytes. The indices at which the
arrays `prefix` and `buf` are written are kept in order. A write outside of an array is noted in
the same way, and what follows is as if the array had room.
-/

set_option autoImplicit false

namespace VineyardLoader

/-! ## Arguments and callbacks -/

/-- A `va_list`: the words of the arguments, and the strings that pointers lead to. -/
structure Arguments where
  word : Nat → BitVec 64
  string : BitVec 64 → CString

/-- An argument list of one word over and over, which leads to the empty string. -/
def Arguments.constant (word : BitVec 64) : Arguments :=
  ⟨fun _ => word, fun _ => .ofBytes [] (by decide)⟩

/-- What the callback returns for the last of the strings that it was given. -/
abbrev Callback := List (List UInt8) → Nat

/-- `callback_placeholder`. -/
def callbackPlaceholder : Callback := fun calls => (calls.getLastD []).length

/-! ## Reading a conversion -/

/-- The flags of a conversion. -/
structure Flags where
  hash : Bool
  minus : Bool
  plus : Bool
  space : Bool
  zero : Bool
deriving Repr, DecidableEq

def Flags.none : Flags := ⟨false, false, false, false, false⟩

/-- One turn of the loop over the flags: `#`, `-`, `+`, a space or `0`. -/
def Flags.set? (flags : Flags) (c : UInt8) : Option Flags :=
  if c = 0x23 then some { flags with hash := true }
  else if c = 0x2D then some { flags with minus := true }
  else if c = 0x2B then some { flags with plus := true }
  else if c = 0x20 then some { flags with space := true }
  else if c = 0x30 then some { flags with zero := true }
  else Option.none

/-- The loop over the flags. -/
def flagLoop (format : CString) : Nat → Flags → Nat → Option (Flags × Nat)
  | 0, _, _ => none
  | turns + 1, flags, cursor => do
      let c ← format.at? cursor
      if c = 0 then return (flags, cursor)
      else
        match flags.set? c with
        | some more => flagLoop format turns more (cursor + 1)
        | none => return (flags, cursor)

/-- A decimal digit. -/
def IsDigit (c : UInt8) : Prop := 0x30 ≤ c ∧ c ≤ 0x39

instance (c : UInt8) : Decidable (IsDigit c) := inferInstanceAs (Decidable (_ ∧ _))

/-- A number with one more digit, as a `size_t`. -/
def addDigit (number : Nat) (c : UInt8) : Nat := (number * 10 + (c.toNat - 0x30)) % 2 ^ 64

/-- The loop over the digits of a width or a precision. -/
def numberLoop (format : CString) : Nat → Nat → Nat → Option (Nat × Nat)
  | 0, _, _ => none
  | turns + 1, number, cursor => do
      let c ← format.at? cursor
      if IsDigit c then numberLoop format turns (addDigit number c) (cursor + 1)
      else return (number, cursor)

/-- `(size_t) va_arg(args, int)`. -/
def sizeOfInt (word : BitVec 64) : Nat := ((word.setWidth 32).signExtend 64).toNat

/-- The width: digits, and a `*` after them takes an argument in their place. The width, the
next index and the next argument are returned. -/
def readWidth (format : CString) (arguments : Arguments) (cursor args : Nat) :
    Option (Nat × Nat × Nat) := do
  let (width, cursor) ← numberLoop format (format.bytes.length + 1) 0 cursor
  if (← format.at? cursor) = 0x2A then
    return (sizeOfInt (arguments.word args), cursor + 1, args + 1)
  else return (width, cursor, args)

/-- `(size_t) -1`, which stands for no precision. -/
def noPrecision : Nat := 2 ^ 64 - 1

/-- The precision and the next index. -/
def readPrecision (format : CString) (cursor : Nat) : Option (Nat × Nat) := do
  if (← format.at? cursor) = 0x2E then numberLoop format (format.bytes.length + 1) 0 (cursor + 1)
  else return (noPrecision, cursor)

/-- `enum length`. -/
inductive Length where
  | shortShort
  | short
  | default
  | long
  | longLong
  | longDouble
  | intmaxT
  | sizeT
  | ptrdiffT
deriving Repr, DecidableEq

/-- `length_modifiers`: `hh`, `h`, nothing, `l`, `ll`, `L`, `j`, `z` and `t`. -/
def lengthModifiers : List (CString × Length) :=
  [(.ofBytes [0x68, 0x68] (by decide), .shortShort),
    (.ofBytes [0x68] (by decide), .short),
    (.ofBytes [] (by decide), .default),
    (.ofBytes [0x6C] (by decide), .long),
    (.ofBytes [0x6C, 0x6C] (by decide), .longLong),
    (.ofBytes [0x4C] (by decide), .longDouble),
    (.ofBytes [0x6A] (by decide), .intmaxT),
    (.ofBytes [0x7A] (by decide), .sizeT),
    (.ofBytes [0x74] (by decide), .ptrdiffT)]

/-- The loop over the length modifiers: the longest that is found, the last among equals. -/
def lengthLoop (format : CString) (cursor : Nat) :
    List (CString × Length) → Length → Nat → Option (Length × Nat)
  | [], length, lengthLength => some (length, lengthLength)
  | (name, other) :: rest, length, lengthLength => do
      if name.bytes.length < lengthLength then lengthLoop format cursor rest length lengthLength
      else if (← strncmp format cursor name 0 name.bytes.length) ≠ 0 then
        lengthLoop format cursor rest length lengthLength
      else lengthLoop format cursor rest other name.bytes.length

/-- What stands between the percent sign and the specifier. -/
structure Spec where
  flags : Flags
  width : Nat
  precision : Nat
  length : Length
deriving Repr, DecidableEq

/-- The conversion from the byte after the percent sign to the specifier, with the index of the
specifier and the next argument. -/
def readSpec (format : CString) (arguments : Arguments) (cursor args : Nat) :
    Option (Spec × Nat × Nat) := do
  let (flags, cursor) ← flagLoop format (format.bytes.length + 1) Flags.none cursor
  let (width, cursor, args) ← readWidth format arguments cursor args
  let (precision, cursor) ← readPrecision format cursor
  let (length, lengthLength) ← lengthLoop format cursor lengthModifiers .default 0
  return (⟨flags, width, precision, length⟩, cursor + lengthLength, args)

/-! ## Integers -/

/-- The bits of the type that `va_arg` is given for an integer. `long` has 32 bits on the target,
and a `long double` is not an integer. -/
def vaBits : Length → Option Nat
  | .shortShort => some 32
  | .short => some 32
  | .default => some 32
  | .long => some 32
  | .longLong => some 64
  | .longDouble => none
  | .intmaxT => some 64
  | .sizeT => some 64
  | .ptrdiffT => some 64

/-- The value of an integer argument and whether it is negative, or nothing for a length that
does not belong to the specifier. -/
def integerValue (word : BitVec 64) (length : Length) (specifier : UInt8) :
    Option (BitVec 64 × Bool) :=
  if specifier = 0x70 then some (word, false)
  else
    match vaBits length with
    | none => none
    | some bits =>
        if specifier = 0x69 ∨ specifier = 0x64 then
          let signedValue := (word.setWidth bits).signExtend 64
          let negative := signedValue.msb
          some (if negative then -signedValue else signedValue, negative)
        else some ((word.setWidth bits).setWidth 64, false)

/-- The bytes of `prefix`: the sign, then what the flag `#` adds. -/
def integerPrefix (flags : Flags) (negative : Bool) (specifier : UInt8) : List UInt8 :=
  (if negative then [0x2D]
    else if flags.plus then [0x2B]
    else if flags.space then [0x20]
    else []) ++
  (if flags.hash ∧ (specifier = 0x78 ∨ specifier = 0x58) then [0x30, specifier]
    else if flags.hash ∧ specifier = 0x6F then [0x30]
    else [])

/-- `conv`. -/
def convDigits (specifier : UInt8) : List UInt8 :=
  if specifier = 0x58 then
    [0x30, 0x31, 0x32, 0x33, 0x34, 0x35, 0x36, 0x37, 0x38, 0x39, 0x41, 0x42, 0x43, 0x44, 0x45, 0x46]
  else
    [0x30, 0x31, 0x32, 0x33, 0x34, 0x35, 0x36, 0x37, 0x38, 0x39, 0x61, 0x62, 0x63, 0x64, 0x65, 0x66]

/-- `base`. -/
def integerBase (specifier : UInt8) : Nat :=
  if specifier = 0x58 ∨ specifier = 0x78 then 16 else if specifier = 0x6F then 8 else 10

/-- The loop that counts the digits, within a number of turns. -/
def bufLengthLoop (base : Nat) : Nat → Nat → Nat → Nat
  | 0, bufLength, _ => bufLength
  | turns + 1, bufLength, copy =>
      if base ≤ copy then bufLengthLoop base turns (bufLength + 1) (copy / base) else bufLength

/-- `buf_length`. A value of 64 bits has fewer than 64 digits. -/
def bufLength (base value : Nat) : Nat := bufLengthLoop base 64 1 value

/-- The loop that writes the digits, from the last to the first. -/
def bufLoop (conv : List UInt8) (base : Nat) : Nat → Nat → List UInt8 → List UInt8
  | 0, _, buf => buf
  | i + 1, value, buf => bufLoop conv base i (value / base) (conv.getD (value % base) 0 :: buf)

/-- What a conversion prints and what it leaves: the strings for the callback, the next argument,
what is added to `written`, and the indices of the writes to `prefix` and `buf`. -/
structure Emission where
  calls : List (List UInt8)
  args : Nat
  written : Nat
  prefixWrites : List Nat
  bufWrites : List Nat
deriving Repr, DecidableEq

/-- `printed_width`. -/
def printedWidth (precision bufLength : Nat) : Nat :=
  if precision ≠ noPrecision ∧ precision > bufLength then precision else bufLength

/-- `pad`, with the sum as a `size_t`. -/
def padLength (width printed : Nat) : Nat :=
  if printed % 2 ^ 64 > width then 0 else width - printed % 2 ^ 64

/-- The branch of the integers, with the specifier `p` replaced by `x`. -/
def convertInteger (spec : Spec) (args : Nat) (specifier : UInt8) (value : BitVec 64)
    (negative : Bool) : Emission :=
  let flags := spec.flags
  let padChar : UInt8 := if flags.zero then 0x30 else 0x20
  let pre := integerPrefix flags negative specifier
  let base := integerBase specifier
  let length := bufLength base value.toNat
  let printed := printedWidth spec.precision length
  let pad := padLength spec.width (printed + pre.length)
  let buf := bufLoop (convDigits specifier) base length value.toNat []
  { calls :=
      (if padChar = 0x20 then List.replicate pad [0x20] else []) ++
      [pre] ++
      (if padChar = 0x30 ∧ !flags.minus then List.replicate pad [0x30] else []) ++
      (if printed > length then List.replicate (printed - length) [0x30] else []) ++
      [buf] ++
      (if flags.minus then List.replicate pad [0x20] else [])
    args := args
    written := length
    -- the final zero is written to both arrays as well
    prefixWrites := List.range (pre.length + 1)
    bufWrites := (List.range length).reverse ++ [length] }

/-! ## Conversions -/

/-- The specifiers of integers: `d`, `i`, `o`, `p`, `u`, `x` and `X`. -/
def IsInteger (c : UInt8) : Prop :=
  c = 0x64 ∨ c = 0x69 ∨ c = 0x6F ∨ c = 0x70 ∨ c = 0x75 ∨ c = 0x78 ∨ c = 0x58

instance (c : UInt8) : Decidable (IsInteger c) :=
  inferInstanceAs (Decidable (_ ∨ _ ∨ _ ∨ _ ∨ _ ∨ _ ∨ _))

/-- The switch over the specifier. Where it goes to `unknown_conversion` there is nothing. -/
def convert (arguments : Arguments) (spec : Spec) (args : Nat) (c : UInt8) : Option Emission :=
  if c = 0x25 then some ⟨[[c]], args, 0, [], []⟩
  else if c = 0x73 then
    let string := arguments.string (arguments.word args)
    let len := string.bytes.length
    let len := if spec.precision < len then spec.precision else len
    some ⟨[string.bytes.take len], args + 1, len, [], []⟩
  else if c = 0x63 then
    some ⟨[[UInt8.ofBitVec ((arguments.word args).setWidth 8)]], args + 1, 1, [], []⟩
  else if IsInteger c then
    (integerValue (arguments.word args) spec.length c).map fun (value, negative) =>
      convertInteger spec (args + 1) (if c = 0x70 then 0x78 else c) value negative
  else none

/-- The loop over a block of text. -/
def blockLoop (format : CString) (cursor : Nat) : Nat → Nat → Option Nat
  | 0, _ => none
  | turns + 1, block => do
      let c ← format.at? (cursor + block)
      if c ≠ 0 ∧ c ≠ 0x25 then blockLoop format cursor turns (block + 1) else return block

/-- A turn of the main loop: what it prints, the next index, and the flag `bad_conversion`. -/
structure Turn where
  emission : Emission
  format : Nat
  badConversion : Bool
deriving Repr, DecidableEq

/-- `normal_print`: the byte at the index and the text after it. -/
def normalPrint (format : CString) (cursor args : Nat) (badConversion : Bool) : Option Turn := do
  let block ← blockLoop format cursor (format.bytes.length + 1) 1
  return ⟨⟨[(format.bytes.drop cursor).take block], args, block, [], []⟩, cursor + block,
    badConversion⟩

/-- A turn of the main loop, from an index at which the format does not end. -/
def turn (format : CString) (arguments : Arguments) (cursor args : Nat) (badConversion : Bool) :
    Option Turn := do
  if (← format.at? cursor) ≠ 0x25 then normalPrint format cursor args badConversion
  else
    let formatStart := cursor
    if (← format.at? (cursor + 1)) = 0x25 then normalPrint format (cursor + 1) args badConversion
    else if badConversion then normalPrint format formatStart args true
    else
      let (spec, cursor, args) ← readSpec format arguments (cursor + 1) args
      let c ← format.at? cursor
      match convert arguments spec args c with
      | some emission => return ⟨emission, cursor + 1, badConversion⟩
      -- `unknown_conversion`: the cursor is set back
      | none => normalPrint format formatStart args true

/-! ## The main loop -/

/-- The state of the main loop, with the strings that the callback was given and the indices of
the writes so far. -/
structure PrintState where
  format : Nat
  args : Nat
  written : Nat
  badConversion : Bool
  calls : List (List UInt8)
  prefixWrites : List Nat
  bufWrites : List Nat
deriving Repr, DecidableEq

/-- Strings given to the callback after others, up to one that it does not take as a whole: all
that it was given, and whether it took every one. -/
def deliver (callback : Callback) : List (List UInt8) → List (List UInt8) → List (List UInt8) × Bool
  | made, [] => (made, true)
  | made, string :: rest =>
      if callback (made ++ [string]) ≠ string.length then (made ++ [string], false)
      else deliver callback (made ++ [string]) rest

/-- The state after a turn, with the strings that the callback was given. -/
def PrintState.after (state : PrintState) (t : Turn) (calls : List (List UInt8)) : PrintState where
  format := t.format
  args := t.emission.args
  written := (state.written + t.emission.written) % 2 ^ 64
  badConversion := t.badConversion
  calls := calls
  prefixWrites := state.prefixWrites ++ t.emission.prefixWrites
  bufWrites := state.bufWrites ++ t.emission.bufWrites

/-- The main loop, within a number of turns: the last state, and whether the end of the format
was reached. -/
def mainLoop (callback : Callback) (format : CString) (arguments : Arguments) :
    Nat → PrintState → Option (PrintState × Bool)
  | 0, _ => none
  | turns + 1, state => do
      if (← format.at? state.format) = 0 then return (state, true)
      else
        let t ← turn format arguments state.format state.args state.badConversion
        let (calls, taken) := deliver callback state.calls t.emission.calls
        if taken then mainLoop callback format arguments turns (state.after t calls)
        else return (state.after t calls, false)

/-- The state before the first turn. -/
def PrintState.start : PrintState := ⟨0, 0, 0, false, [], [], []⟩

def intMax : Nat := 2 ^ 31 - 1

/-- `vcbprintf`: what it returns and the state it leaves. There may be no callback, and no
format. -/
def vcbprintf (callback : Option Callback) (format : Option CString) (arguments : Arguments) :
    Option (Int × PrintState) := do
  let callback := callback.getD callbackPlaceholder
  match format with
  | none => return (0, PrintState.start)
  | some format =>
      let (state, reached) ← mainLoop callback format arguments (format.bytes.length + 1)
        PrintState.start
      if reached then
        if state.written > intMax then return (-1, state) else return (state.written, state)
      else return (-1, state)

end VineyardLoader
