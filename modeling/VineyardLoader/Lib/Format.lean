import Mathlib.Order.Basic
import Mathlib.Data.Nat.Basic
import VineyardLoader.Lib.Vcbprintf

/-!
# The format as a list of bytes

The main loop reads the format through an index. Here the same is done with what is left of the
format: a conversion is taken apart from the front (`specOf`), and a turn is a step to what it
leaves (`step`).

Every turn from inside the format has a value and goes to the rest that its step says
(`turn_eq`), which is shorter (`step_rest_lt`). So the main loop ends, and reads nothing past
the final zero (`vcbprintf_reads_inside`).
-/

set_option autoImplicit false

namespace VineyardLoader

/-! ## Parts of a conversion -/

/-- The flags at the front, and what is left. -/
def takeFlags : List UInt8 → Flags → Flags × List UInt8
  | [], flags => (flags, [])
  | c :: rest, flags =>
      match flags.set? c with
      | some more => takeFlags rest more
      | none => (flags, c :: rest)

/-- The digits at the front, after a number, and what is left. -/
def takeNumber : List UInt8 → Nat → Nat × List UInt8
  | [], number => (number, [])
  | c :: rest, number =>
      if IsDigit c then takeNumber rest (addDigit number c) else (number, c :: rest)

/-- The width at the front, what is left, and the next argument. -/
def takeWidth (arguments : Arguments) (args : Nat) (rest : List UInt8) :
    Nat × List UInt8 × Nat :=
  let (width, rest) := takeNumber rest 0
  if rest.headD 0 = 0x2A then (sizeOfInt (arguments.word args), rest.tail, args + 1)
  else (width, rest, args)

/-- The precision at the front, and what is left. -/
def takePrecision (rest : List UInt8) : Nat × List UInt8 :=
  if rest.headD 0 = 0x2E then takeNumber rest.tail 0 else (noPrecision, rest)

/-- The choice among length modifiers. -/
def pickLength (rest : List UInt8) : List (CString × Length) → Length → Nat → Length × Nat
  | [], length, lengthLength => (length, lengthLength)
  | (name, other) :: table, length, lengthLength =>
      if name.bytes.length < lengthLength then pickLength rest table length lengthLength
      else if name.bytes.isPrefixOf rest then pickLength rest table other name.bytes.length
      else pickLength rest table length lengthLength

/-- The length modifier at the front, and what is left. -/
def takeLength (rest : List UInt8) : Length × List UInt8 :=
  let (length, lengthLength) := pickLength rest lengthModifiers .default 0
  (length, rest.drop lengthLength)

/-- A conversion from after its percent sign: what stands before the specifier, what is left
from the specifier on, and the next argument. -/
def specOf (arguments : Arguments) (args : Nat) (rest : List UInt8) : Spec × List UInt8 × Nat :=
  let (flags, rest) := takeFlags rest Flags.none
  let (width, rest, args) := takeWidth arguments args rest
  let (precision, rest) := takePrecision rest
  let (length, rest) := takeLength rest
  (⟨flags, width, precision, length⟩, rest, args)

theorem takeFlags_length (rest : List UInt8) :
    ∀ flags, (takeFlags rest flags).2.length ≤ rest.length := by
  induction rest with
  | nil =>
      intro flags
      exact le_rfl
  | cons c rest ih =>
      intro flags
      rw [takeFlags]
      split
      · exact Nat.le_succ_of_le (ih _)
      · exact le_rfl

theorem takeNumber_length (rest : List UInt8) :
    ∀ number, (takeNumber rest number).2.length ≤ rest.length := by
  induction rest with
  | nil =>
      intro number
      exact le_rfl
  | cons c rest ih =>
      intro number
      rw [takeNumber]
      split
      · exact Nat.le_succ_of_le (ih _)
      · exact le_rfl

theorem pickLength_le (rest : List UInt8) {table : List (CString × Length)} :
    ∀ {length : Length} {lengthLength : Nat}, lengthLength ≤ rest.length →
      (pickLength rest table length lengthLength).2 ≤ rest.length := by
  induction table with
  | nil =>
      intro length lengthLength bound
      exact bound
  | cons entry table ih =>
      intro length lengthLength bound
      obtain ⟨name, other⟩ := entry
      rw [pickLength]
      split
      · exact ih bound
      · split
        · rename_i found
          exact ih (List.isPrefixOf_iff_prefix.mp found).length_le
        · exact ih bound

/-! ## Reading through the index -/

section Reading

variable {format : CString} {cursor : Nat} {rest : List UInt8}

theorem flagLoop_eq : ∀ {turns cursor : Nat} {rest : List UInt8} (flags : Flags),
    format.At cursor rest → rest.length < turns →
      ∃ next, flagLoop format turns flags cursor = some ((takeFlags rest flags).1, next) ∧
        format.At next (takeFlags rest flags).2 := by
  intro turns
  induction turns with
  | zero =>
      intro cursor rest flags here bound
      exact absurd bound (Nat.not_lt_zero _)
  | succ turns ih =>
      intro cursor rest flags here bound
      rw [flagLoop, here.read]
      cases rest with
      | nil => exact ⟨cursor, rfl, here⟩
      | cons c rest =>
          simp only [List.headD_cons, Option.bind_eq_bind, Option.bind_some,
            if_neg here.head_ne_zero, takeFlags]
          cases flags.set? c with
          | some more => exact ih more here.next (Nat.lt_of_succ_lt_succ bound)
          | none => exact ⟨cursor, rfl, here⟩

theorem numberLoop_eq : ∀ {turns cursor : Nat} {rest : List UInt8} (number : Nat),
    format.At cursor rest → rest.length < turns →
      ∃ next, numberLoop format turns number cursor = some ((takeNumber rest number).1, next) ∧
        format.At next (takeNumber rest number).2 := by
  intro turns
  induction turns with
  | zero =>
      intro cursor rest number here bound
      exact absurd bound (Nat.not_lt_zero _)
  | succ turns ih =>
      intro cursor rest number here bound
      rw [numberLoop, here.read]
      cases rest with
      | nil => exact ⟨cursor, rfl, here⟩
      | cons c rest =>
          simp only [List.headD_cons, Option.bind_eq_bind, Option.bind_some, takeNumber]
          split
          · exact ih _ here.next (Nat.lt_of_succ_lt_succ bound)
          · exact ⟨cursor, rfl, here⟩

/-- A byte that is not the final zero is the first of the rest, and may be left behind. -/
theorem CString.At.tail {c : UInt8} (here : format.At cursor rest) (head : rest.headD 0 = c)
    (nonzero : c ≠ 0) : format.At (cursor + 1) rest.tail := by
  cases rest with
  | nil => exact absurd head.symm nonzero
  | cons first rest => exact here.next

theorem CString.At.length_lt (here : format.At cursor rest) :
    rest.length < format.bytes.length + 1 := by
  have inside := here.inside
  omega

theorem readWidth_eq (arguments : Arguments) (args : Nat) (here : format.At cursor rest) :
    ∃ next, readWidth format arguments cursor args =
        some ((takeWidth arguments args rest).1, next, (takeWidth arguments args rest).2.2) ∧
      format.At next (takeWidth arguments args rest).2.1 := by
  obtain ⟨next, run, after⟩ := numberLoop_eq 0 here here.length_lt
  rw [readWidth, run]
  simp only [Option.bind_eq_bind, Option.bind_some, after.read, takeWidth]
  split
  · rename_i star
    exact ⟨next + 1, rfl, after.tail star (by decide)⟩
  · exact ⟨next, rfl, after⟩

theorem readPrecision_eq (here : format.At cursor rest) :
    ∃ next, readPrecision format cursor = some ((takePrecision rest).1, next) ∧
      format.At next (takePrecision rest).2 := by
  rw [readPrecision, here.read]
  simp only [Option.bind_eq_bind, Option.bind_some, takePrecision]
  split
  · rename_i point
    have after := here.tail point (by decide)
    exact numberLoop_eq 0 after after.length_lt
  · exact ⟨cursor, rfl, here⟩

theorem lengthLoop_eq (here : format.At cursor rest) (table : List (CString × Length)) :
    ∀ (length : Length) (lengthLength : Nat),
      lengthLoop format cursor table length lengthLength =
        some (pickLength rest table length lengthLength) := by
  induction table with
  | nil =>
      intro length lengthLength
      rfl
  | cons entry table ih =>
      intro length lengthLength
      obtain ⟨name, other⟩ := entry
      obtain ⟨result, run, zero⟩ := strncmp_eq here (CString.At.zero name)
      rw [lengthLoop, pickLength, run]
      simp only [Option.bind_eq_bind, Option.bind_some, ih, ne_eq, zero, ite_not]
      split
      · rfl
      · split <;> rfl

theorem readSpec_eq (arguments : Arguments) (args : Nat) (here : format.At cursor rest) :
    ∃ next, readSpec format arguments cursor args =
        some ((specOf arguments args rest).1, next, (specOf arguments args rest).2.2) ∧
      format.At next (specOf arguments args rest).2.1 := by
  obtain ⟨flagsEnd, flags, here⟩ := flagLoop_eq Flags.none here here.length_lt
  obtain ⟨widthEnd, width, here⟩ := readWidth_eq arguments args here
  obtain ⟨precisionEnd, precision, here⟩ := readPrecision_eq here
  have length := lengthLoop_eq here lengthModifiers .default 0
  rw [readSpec, flags]
  simp only [Option.bind_eq_bind, Option.bind_some, width, precision, length, specOf, takeLength]
  exact ⟨_, rfl, here.advance (pickLength_le _ (Nat.zero_le _))⟩

/-! ## Blocks of text -/

/-- A byte that does not start a conversion. -/
def isText (c : UInt8) : Bool := c != 0x25

/-- The first byte and the text after it, and what is left. -/
def takeBlock : List UInt8 → List UInt8 × List UInt8
  | [] => ([], [])
  | c :: rest => (c :: rest.takeWhile isText, rest.dropWhile isText)

theorem takeBlock_append (rest : List UInt8) : (takeBlock rest).1 ++ (takeBlock rest).2 = rest := by
  cases rest with
  | nil => rfl
  | cons c rest => exact congrArg (c :: ·) List.takeWhile_append_dropWhile

theorem takeBlock_length (c : UInt8) (rest : List UInt8) :
    (takeBlock (c :: rest)).2.length ≤ rest.length :=
  (List.dropWhile_suffix _).length_le

theorem blockLoop_eq : ∀ {turns block : Nat} {more : List UInt8},
    format.At (cursor + block) more → more.length < turns →
      blockLoop format cursor turns block = some (block + (more.takeWhile isText).length) := by
  intro turns
  induction turns with
  | zero =>
      intro block more here bound
      exact absurd bound (Nat.not_lt_zero _)
  | succ turns ih =>
      intro block more here bound
      rw [blockLoop, here.read]
      cases more with
      | nil => rfl
      | cons c more =>
          simp only [List.headD_cons, Option.bind_eq_bind, Option.bind_some, ne_eq,
            here.head_ne_zero, not_false_eq_true, true_and, List.takeWhile_cons]
          by_cases percent : c = 0x25
          · subst percent
            rfl
          · have after : format.At (cursor + (block + 1)) more := here.next
            have text : isText c = true := bne_iff_ne.mpr percent
            rw [if_pos percent, ih after (Nat.lt_of_succ_lt_succ bound), if_pos text,
              List.length_cons]
            congr 1
            omega

/-- `normal_print` prints the block at the front. -/
theorem normalPrint_eq {c : UInt8} (here : format.At cursor (c :: rest)) (args : Nat) (bad : Bool) :
    ∃ next, normalPrint format cursor args bad =
        some ⟨⟨[(takeBlock (c :: rest)).1], args, (takeBlock (c :: rest)).1.length, [], []⟩, next,
          bad⟩ ∧
      format.At next (takeBlock (c :: rest)).2 := by
  have split := takeBlock_append (c :: rest)
  have length : 1 + (rest.takeWhile isText).length = (takeBlock (c :: rest)).1.length := by
    rw [takeBlock, List.length_cons, Nat.add_comm]
  have block := blockLoop_eq here.next here.next.length_lt
  rw [length] at block
  have printed : (format.bytes.drop cursor).take (takeBlock (c :: rest)).1.length =
      (takeBlock (c :: rest)).1 := by
    rw [here.drop]
    nth_rewrite 2 [← split]
    exact List.take_left
  have left : (c :: rest).drop (takeBlock (c :: rest)).1.length = (takeBlock (c :: rest)).2 := by
    nth_rewrite 2 [← split]
    exact List.drop_left
  rw [normalPrint, block]
  simp only [Option.bind_eq_bind, Option.bind_some, printed]
  refine ⟨_, rfl, ?_⟩
  have bound := congrArg List.length split
  rw [List.length_append] at bound
  rw [← left]
  exact here.advance (by omega)

/-! ## Steps -/

/-- A conversion that the switch knows: what stands before the specifier, the argument it starts
with, and the specifier. -/
structure Conversion where
  spec : Spec
  args : Nat
  specifier : UInt8
deriving Repr, DecidableEq

/-- A turn of the main loop on what is left of the format. It prints a conversion, or a block of
text. -/
structure Step where
  emission : Emission
  rest : List UInt8
  badConversion : Bool
  conversion : Option Conversion

/-- What a block of text prints. -/
def textEmission (block : List UInt8) (args : Nat) : Emission := ⟨[block], args, block.length, [], []⟩

/-- A step that prints the block at the front. -/
def textStep (rest : List UInt8) (args : Nat) (bad : Bool) : Step :=
  ⟨textEmission (takeBlock rest).1 args, (takeBlock rest).2, bad, none⟩

/-- The step from the percent sign of a conversion, with what follows the sign. -/
def conversionStep (arguments : Arguments) (args : Nat) (rest : List UInt8) : Step :=
  let (spec, specifier, args) := specOf arguments args rest
  match convert arguments spec args (specifier.headD 0) with
  | some emission => ⟨emission, specifier.tail, false, some ⟨spec, args, specifier.headD 0⟩⟩
  | none => textStep (0x25 :: rest) args true

/-- The step from the front of what is left. -/
def step (arguments : Arguments) (args : Nat) (bad : Bool) : List UInt8 → Step
  | [] => textStep [] args bad
  | c :: rest =>
      if c ≠ 0x25 then textStep (c :: rest) args bad
      else if rest.headD 0 = 0x25 then textStep rest args bad
      else if bad then textStep (c :: rest) args true
      else conversionStep arguments args rest

/-- The step from a conversion that the switch knows. -/
theorem conversionStep_of_some {arguments : Arguments} {args : Nat} {emission : Emission}
    (known : convert arguments (specOf arguments args rest).1 (specOf arguments args rest).2.2
      ((specOf arguments args rest).2.1.headD 0) = some emission) :
    conversionStep arguments args rest =
      ⟨emission, (specOf arguments args rest).2.1.tail, false,
        some ⟨(specOf arguments args rest).1, (specOf arguments args rest).2.2,
          (specOf arguments args rest).2.1.headD 0⟩⟩ := by
  unfold conversionStep
  generalize specOf arguments args rest = taken at known ⊢
  obtain ⟨spec, specifier, next⟩ := taken
  simp only [known]

/-- The step from a conversion that the switch does not know. -/
theorem conversionStep_of_none {arguments : Arguments} {args : Nat}
    (unknown : convert arguments (specOf arguments args rest).1 (specOf arguments args rest).2.2
      ((specOf arguments args rest).2.1.headD 0) = none) :
    conversionStep arguments args rest =
      textStep (0x25 :: rest) (specOf arguments args rest).2.2 true := by
  unfold conversionStep
  generalize specOf arguments args rest = taken at unknown ⊢
  obtain ⟨spec, specifier, next⟩ := taken
  simp only [unknown]

theorem conversionStep_cases (arguments : Arguments) (args : Nat) (rest : List UInt8) :
    (∃ emission, convert arguments (specOf arguments args rest).1
        (specOf arguments args rest).2.2 ((specOf arguments args rest).2.1.headD 0) =
          some emission ∧
      conversionStep arguments args rest =
        ⟨emission, (specOf arguments args rest).2.1.tail, false,
          some ⟨(specOf arguments args rest).1, (specOf arguments args rest).2.2,
            (specOf arguments args rest).2.1.headD 0⟩⟩) ∨
    (convert arguments (specOf arguments args rest).1 (specOf arguments args rest).2.2
        ((specOf arguments args rest).2.1.headD 0) = none ∧
      conversionStep arguments args rest =
        textStep (0x25 :: rest) (specOf arguments args rest).2.2 true) := by
  cases known : convert arguments (specOf arguments args rest).1
      (specOf arguments args rest).2.2 ((specOf arguments args rest).2.1.headD 0) with
  | some emission => exact .inl ⟨emission, rfl, conversionStep_of_some known⟩
  | none => exact .inr ⟨rfl, conversionStep_of_none known⟩

/-- The switch knows no specifier that is the final zero. -/
theorem convert_zero (arguments : Arguments) (spec : Spec) (args : Nat) :
    convert arguments spec args 0 = none := rfl

/-- **A turn is a step.** From inside the format a turn has a value, and goes to what its step
leaves. -/
theorem turn_eq (arguments : Arguments) (args : Nat) (bad : Bool) {c : UInt8}
    (here : format.At cursor (c :: rest)) :
    ∃ next, turn format arguments cursor args bad =
        some ⟨(step arguments args bad (c :: rest)).emission, next,
          (step arguments args bad (c :: rest)).badConversion⟩ ∧
      format.At next (step arguments args bad (c :: rest)).rest := by
  rw [turn, here.read, step]
  simp only [List.headD_cons, Option.bind_eq_bind, Option.bind_some]
  by_cases percent : c = 0x25
  · rw [if_neg (not_not_intro percent), if_neg (not_not_intro percent), here.next.read]
    simp only [Option.bind_some]
    by_cases escaped : rest.headD 0 = 0x25
    · rw [if_pos escaped, if_pos escaped]
      cases rest with
      | nil => exact absurd escaped (by decide)
      | cons first rest => exact normalPrint_eq here.next args bad
    · rw [if_neg escaped, if_neg escaped]
      cases bad with
      | true => exact normalPrint_eq here args true
      | false =>
          obtain ⟨specifierAt, spec, after⟩ := readSpec_eq arguments args here.next
          simp only [Bool.false_eq_true, if_false, spec, Option.bind_some, after.read]
          rcases conversionStep_cases arguments args rest with ⟨emission, known, made⟩ |
              ⟨unknown, made⟩
          · have nonzero : (specOf arguments args rest).2.1.headD 0 ≠ 0 := by
              intro zero
              rw [zero, convert_zero] at known
              cases known
            rw [made, known]
            exact ⟨specifierAt + 1, rfl, after.tail rfl nonzero⟩
          · subst percent
            rw [made, unknown]
            exact normalPrint_eq here _ true
  · rw [if_pos percent, if_pos percent]
    exact normalPrint_eq here args bad

end Reading

theorem takeWidth_length (arguments : Arguments) (args : Nat) (rest : List UInt8) :
    (takeWidth arguments args rest).2.1.length ≤ rest.length := by
  have number := takeNumber_length rest 0
  simp only [takeWidth]
  split
  · rw [List.length_tail]
    omega
  · exact number

theorem takePrecision_length (rest : List UInt8) :
    (takePrecision rest).2.length ≤ rest.length := by
  simp only [takePrecision]
  split
  · have number := takeNumber_length rest.tail 0
    rw [List.length_tail] at number
    omega
  · exact le_rfl

theorem takeLength_length (rest : List UInt8) : (takeLength rest).2.length ≤ rest.length := by
  simp only [takeLength, List.length_drop]
  exact Nat.sub_le _ _

theorem specOf_length (arguments : Arguments) (args : Nat) (rest : List UInt8) :
    (specOf arguments args rest).2.1.length ≤ rest.length := by
  simp only [specOf]
  exact ((takeLength_length _).trans (takePrecision_length _)).trans
    ((takeWidth_length _ _ _).trans (takeFlags_length _ _))

/-- **A step leaves less than there was.** -/
theorem step_rest_lt (arguments : Arguments) (args : Nat) (bad : Bool) (c : UInt8)
    (rest : List UInt8) : (step arguments args bad (c :: rest)).rest.length < (c :: rest).length := by
  have block : ∀ c : UInt8, (takeBlock (c :: rest)).2.length < (c :: rest).length := fun c =>
    Nat.lt_succ_of_le (takeBlock_length c rest)
  rw [step]
  split_ifs with text escaped bad
  · exact block c
  · cases rest with
    | nil => exact absurd escaped (by decide)
    | cons first rest => exact Nat.lt_succ_of_le (Nat.le_succ_of_le (takeBlock_length first rest))
  · exact block c
  · rcases conversionStep_cases arguments args rest with ⟨emission, -, made⟩ | ⟨-, made⟩
    · rw [made, List.length_tail]
      exact Nat.lt_succ_of_le ((Nat.sub_le _ _).trans (specOf_length _ _ _))
    · rw [made]
      exact block 0x25

/-! ## The main loop ends -/

section Loop

variable {format : CString} {arguments : Arguments}

/-- A turn from inside the format goes forward, and not past the final zero. -/
theorem turn_forward (arguments : Arguments) {cursor : Nat}
    (inside : cursor < format.bytes.length) (args : Nat) (bad : Bool) :
    ∃ t, turn format arguments cursor args bad = some t ∧ cursor < t.format ∧
      t.format ≤ format.bytes.length := by
  have here : format.At cursor (format.bytes.drop cursor) := .of_le inside.le
  obtain ⟨c, rest, split⟩ := List.exists_cons_of_length_pos (l := format.bytes.drop cursor) (by
    rw [List.length_drop]
    omega)
  rw [split] at here
  obtain ⟨next, run, after⟩ := turn_eq arguments args bad here
  have shorter := step_rest_lt arguments args bad c rest
  have start := here.inside
  have finish := after.inside
  refine ⟨_, run, ?_, after.le⟩
  show cursor < next
  omega

/-- From inside the format the main loop ends in as many turns as there are bytes left, and
one. -/
theorem mainLoop_isSome (callback : Callback) (format : CString) (arguments : Arguments) :
    ∀ (turns : Nat) (state : PrintState), state.format ≤ format.bytes.length →
      format.bytes.length < state.format + turns →
        ∃ final reached, mainLoop callback format arguments turns state = some (final, reached) := by
  intro turns
  induction turns with
  | zero =>
      intro state inside bound
      omega
  | succ turns ih =>
      intro state inside bound
      have here := CString.At.of_le inside
      rw [mainLoop, here.read]
      simp only [Option.bind_eq_bind, Option.bind_some]
      split
      · exact ⟨state, true, rfl⟩
      · rename_i more
        have before : state.format < format.bytes.length := by
          by_contra ended
          rw [List.drop_eq_nil_of_le (Nat.le_of_not_lt ended)] at more
          exact more rfl
        obtain ⟨t, run, forward, within⟩ :=
          turn_forward arguments before state.args state.badConversion
        simp only [run, Option.bind_some]
        split
        · exact ih _ within (show format.bytes.length < t.format + turns by omega)
        · exact ⟨_, false, rfl⟩

/-- **Malformed formats are safe.** For every format, every argument list and every callback,
`vcbprintf` returns: its loops end, and nothing past the final zero of the format is read.
Every turn of the main loop from inside the format ends further on, and not past the final
zero. -/
theorem vcbprintf_reads_inside (callback : Option Callback) (format : CString)
    (arguments : Arguments) :
    (∃ result final, vcbprintf callback (some format) arguments = some (result, final)) ∧
      ∀ cursor args bad, cursor < format.bytes.length →
        ∃ t, turn format arguments cursor args bad = some t ∧ cursor < t.format ∧
          t.format ≤ format.bytes.length := by
  refine ⟨?_, fun cursor args bad inside => turn_forward arguments inside args bad⟩
  obtain ⟨final, reached, run⟩ := mainLoop_isSome
    (callback.getD callbackPlaceholder) format arguments (format.bytes.length + 1)
    PrintState.start (Nat.zero_le _) (by simp [PrintState.start])
  rw [vcbprintf]
  simp only [run, Option.bind_eq_bind, Option.bind_some]
  split
  · split
    · exact ⟨_, _, rfl⟩
    · exact ⟨_, _, rfl⟩
  · exact ⟨_, _, rfl⟩

/-- A percent sign with nothing after it. -/
theorem vcbprintf_reads_inside_lone :
    ∃ t, turn (.ofBytes [0x25] (by decide)) (.constant 0) 0 0 false = some t ∧
      0 < t.format ∧ t.format ≤ 1 :=
  (vcbprintf_reads_inside none (.ofBytes [0x25] (by decide)) (.constant 0)).2 0 0 false
    (by decide)

end Loop

end VineyardLoader
