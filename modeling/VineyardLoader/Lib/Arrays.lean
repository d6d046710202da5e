import VineyardLoader.Lib.Integers
import VineyardLoader.Lib.Runs

/-!
# The arrays of `vcbprintf`

What a conversion does follows from its specifier (`convert_cases`). It overruns an array when
it puts a sign and `0x` into `prefix`, or an octal value of more than 20 digits into `buf`
(`Conversion.Overruns`). A format is printed inside the arrays, whatever the callback does,
exactly when none of its conversions does that (`vcbprintf_inside_iff`).
-/

set_option autoImplicit false

namespace VineyardLoader

/-! ## The switch -/

/-- The specifier that an integer is printed with: a pointer is printed with `x`. -/
abbrev printedAs (c : UInt8) : UInt8 := if c = 0x70 then 0x78 else c

section Switch

variable {arguments : Arguments} {spec : Spec} {args : Nat} {c : UInt8} {emission : Emission}

theorem IsInteger.ne_percent (integer : IsInteger c) : c ≠ 0x25 := by
  rintro rfl
  exact absurd integer (by decide)

theorem IsInteger.ne_string (integer : IsInteger c) : c ≠ 0x73 := by
  rintro rfl
  exact absurd integer (by decide)

theorem IsInteger.ne_character (integer : IsInteger c) : c ≠ 0x63 := by
  rintro rfl
  exact absurd integer (by decide)

theorem convert_integer (arguments : Arguments) (spec : Spec) (args : Nat)
    (integer : IsInteger c) :
    convert arguments spec args c =
      (integerValue (arguments.word args) spec.length c).map fun (value, negative) =>
        convertInteger spec (args + 1) (printedAs c) value negative := by
  rw [convert, if_neg integer.ne_percent, if_neg integer.ne_string, if_neg integer.ne_character,
    if_pos integer]

/-- What the switch knows: a percent sign, a string, a character or an integer. -/
theorem convert_cases (known : convert arguments spec args c = some emission) :
    (c = 0x25 ∧ emission = ⟨[[c]], args, 0, [], []⟩) ∨
    (c = 0x73 ∧ ∃ text, text = (arguments.string (arguments.word args)).bytes.take spec.precision ∧
      emission = ⟨[text], args + 1, text.length, [], []⟩) ∨
    (c = 0x63 ∧ ∃ byte : UInt8, byte = UInt8.ofBitVec ((arguments.word args).setWidth 8) ∧
      emission = ⟨[[byte]], args + 1, 1, [], []⟩) ∨
    (IsInteger c ∧ ∃ value negative,
      integerValue (arguments.word args) spec.length c = some (value, negative) ∧
        emission = convertInteger spec (args + 1) (printedAs c) value negative) := by
  have cut : ∀ (precision : Nat) (text : List UInt8),
      text.take (if precision < text.length then precision else text.length) =
          text.take precision ∧
        (if precision < text.length then precision else text.length) =
          (text.take precision).length := by
    intro precision text
    rw [List.length_take]
    split
    · exact ⟨rfl, by omega⟩
    · exact ⟨by rw [List.take_length, List.take_of_length_le (by omega)], by omega⟩
  rw [convert] at known
  by_cases percent : c = 0x25
  · rw [if_pos percent] at known
    exact .inl ⟨percent, (Option.some.inj known).symm⟩
  rw [if_neg percent] at known
  by_cases string : c = 0x73
  · rw [if_pos string] at known
    refine .inr (.inl ⟨string, _, rfl, ?_⟩)
    rw [← Option.some.inj known, (cut _ _).1, (cut _ _).2]
  rw [if_neg string] at known
  by_cases character : c = 0x63
  · rw [if_pos character] at known
    exact .inr (.inr (.inl ⟨character, _, rfl, (Option.some.inj known).symm⟩))
  rw [if_neg character] at known
  by_cases integer : IsInteger c
  · rw [if_pos integer] at known
    obtain ⟨⟨value, negative⟩, found, made⟩ := Option.map_eq_some_iff.mp known
    exact .inr (.inr (.inr ⟨integer, value, negative, found, made.symm⟩))
  · rw [if_neg integer] at known
    cases known

/-- An unsigned value is the low bits of its word. -/
theorem integerValue_unsigned {word value : BitVec 64} {length : Length} {negative : Bool}
    (unsigned : ¬ (c = 0x69 ∨ c = 0x64)) (notPointer : c ≠ 0x70)
    (found : integerValue word length c = some (value, negative)) :
    negative = false ∧ ∃ bits, vaBits length = some bits ∧
      value = (word.setWidth bits).setWidth 64 := by
  rw [integerValue, if_neg notPointer] at found
  cases size : vaBits length with
  | none =>
      rw [size] at found
      cases found
  | some bits =>
      simp only [size, if_neg unsigned, Option.some.injEq, Prod.mk.injEq] at found
      exact ⟨found.2.symm, bits, rfl, found.1.symm⟩

theorem integerValue_pointer {word value : BitVec 64} {length : Length} {negative : Bool}
    (found : integerValue word length 0x70 = some (value, negative)) :
    negative = false ∧ value = word := by
  rw [integerValue, if_pos rfl] at found
  simp only [Option.some.injEq, Prod.mk.injEq] at found
  exact ⟨found.2.symm, found.1.symm⟩

theorem vaBits_le {length : Length} {bits : Nat} (size : vaBits length = some bits) :
    bits ≤ 64 := by
  cases length <;> cases size <;> decide

theorem setWidth_setWidth_toNat (word : BitVec 64) {bits : Nat} (bound : bits ≤ 64) :
    ((word.setWidth bits).setWidth 64).toNat = (word.setWidth bits).toNat := by
  rw [BitVec.toNat_setWidth_of_le bound]

end Switch

/-! ## Steps and their conversions -/

section Steps

variable {arguments : Arguments} {args : Nat} {bad : Bool} {rest : List UInt8}

/-- A step prints the conversion that it names, or a block of text. -/
theorem step_cases (arguments : Arguments) (args : Nat) (bad : Bool) (rest : List UInt8) :
    (∃ conv, (step arguments args bad rest).conversion = some conv ∧
      convert arguments conv.spec conv.args conv.specifier =
        some (step arguments args bad rest).emission) ∨
    ((step arguments args bad rest).conversion = none ∧ ∃ block next,
      (step arguments args bad rest).emission = textEmission block next) := by
  have text : ∀ (left : List UInt8) (next : Nat) (flag : Bool),
      (textStep left next flag).conversion = none ∧ ∃ block args,
        (textStep left next flag).emission = textEmission block args :=
    fun left next flag => ⟨rfl, _, _, rfl⟩
  cases rest with
  | nil => exact .inr (text _ _ _)
  | cons c rest =>
      rw [step]
      split_ifs
      · exact .inr (text _ _ _)
      · exact .inr (text _ _ _)
      · exact .inr (text _ _ _)
      · rcases conversionStep_cases arguments args rest with ⟨emission, known, made⟩ | ⟨-, made⟩
        · rw [made]
          exact .inl ⟨_, rfl, known⟩
        · rw [made]
          exact .inr (text _ _ _)

/-- Every step of a format is a step from some place. -/
theorem exists_step_of_mem {s : Step} : ∀ {args : Nat} {bad : Bool} {rest : List UInt8},
    s ∈ steps arguments args bad rest → ∃ args bad rest, s = step arguments args bad rest := by
  intro args bad rest
  induction args, bad, rest using steps.induct arguments with
  | case1 args bad =>
      intro member
      rw [steps] at member
      cases member
  | case2 args bad c rest ih =>
      intro member
      rw [steps] at member
      rcases List.mem_cons.mp member with rfl | later
      · exact ⟨args, bad, c :: rest, rfl⟩
      · exact ih later

/-- A property of steps that text has holds of all steps if it holds of the conversions. -/
theorem forall_steps_iff {property : Step → Prop} {perConversion : Conversion → Prop}
    (text : ∀ s block next, s.emission = textEmission block next → property s)
    (conversion : ∀ s conv, convert arguments conv.spec conv.args conv.specifier = some s.emission →
      (property s ↔ perConversion conv)) :
    (∀ s ∈ steps arguments args bad rest, property s) ↔
      ∀ conv ∈ (steps arguments args bad rest).filterMap Step.conversion, perConversion conv := by
  constructor
  · intro holds conv member
    obtain ⟨s, taken, named⟩ := List.mem_filterMap.mp member
    obtain ⟨otherArgs, otherBad, otherRest, rfl⟩ := exists_step_of_mem taken
    rcases step_cases arguments otherArgs otherBad otherRest with ⟨found, same, known⟩ | ⟨none_, -⟩
    · rw [same] at named
      cases named
      exact (conversion _ _ known).mp (holds _ taken)
    · rw [none_] at named
      cases named
  · intro holds s taken
    obtain ⟨otherArgs, otherBad, otherRest, rfl⟩ := exists_step_of_mem taken
    rcases step_cases arguments otherArgs otherBad otherRest with
      ⟨conv, named, known⟩ | ⟨-, block, next, plain⟩
    · exact (conversion _ _ known).mpr (holds conv (List.mem_filterMap.mpr ⟨_, taken, named⟩))
    · exact text _ _ _ plain

end Steps

/-! ## Overruns -/

/-- A conversion that overruns an array: a sign and `0x` in the prefix, or an octal value of more
than 20 digits. -/
def Conversion.Overruns (arguments : Arguments) (conv : Conversion) : Prop :=
  (conv.spec.flags.hash = true ∧
    (conv.spec.flags.plus = true ∨ conv.spec.flags.space = true) ∧
    (conv.specifier = 0x78 ∨ conv.specifier = 0x58 ∨ conv.specifier = 0x70)) ∨
  (conv.specifier = 0x6F ∧ ∃ bits, vaBits conv.spec.length = some bits ∧
    2 ^ 60 ≤ ((arguments.word conv.args).setWidth bits).toNat)

theorem hexadecimal_iff (c : UInt8) :
    (printedAs c = 0x78 ∨ printedAs c = 0x58) ↔ (c = 0x78 ∨ c = 0x58 ∨ c = 0x70) := by
  rw [printedAs]
  split
  · rename_i pointer
    simp [pointer]
  · rename_i pointer
    simp [pointer]

theorem octal_iff (c : UInt8) : printedAs c = 0x6F ↔ c = 0x6F := by
  rw [printedAs]
  split
  · rename_i pointer
    rw [pointer]
    decide
  · exact Iff.rfl

/-- A hexadecimal value is not negative. -/
theorem integerValue_hexadecimal {word value : BitVec 64} {length : Length} {negative : Bool}
    {c : UInt8} (hex : c = 0x78 ∨ c = 0x58 ∨ c = 0x70)
    (found : integerValue word length c = some (value, negative)) : negative = false := by
  by_cases pointer : c = 0x70
  · subst pointer
    exact (integerValue_pointer found).1
  · apply (integerValue_unsigned ?_ pointer found).1
    rintro (rfl | rfl) <;> exact absurd hex (by decide)

/-- A conversion writes inside the arrays exactly when it does not overrun one. -/
theorem convert_inside_iff {arguments : Arguments} {conv : Conversion} {emission : Emission}
    (known : convert arguments conv.spec conv.args conv.specifier = some emission) :
    emission.Inside ↔ ¬ conv.Overruns arguments := by
  rcases convert_cases known with ⟨c, rfl⟩ | ⟨c, text, -, rfl⟩ | ⟨c, byte, -, rfl⟩ |
      ⟨integer, value, negative, found, rfl⟩
  · exact iff_of_true (.of_no_writes _ _ _) (by simp [Conversion.Overruns, c])
  · exact iff_of_true (.of_no_writes _ _ _) (by simp [Conversion.Overruns, c])
  · exact iff_of_true (.of_no_writes _ _ _) (by simp [Conversion.Overruns, c])
  · rw [convertInteger_inside_iff, Conversion.Overruns, not_or]
    apply and_congr
    · apply not_congr
      rw [hexadecimal_iff]
      constructor
      · rintro ⟨signed, hash, hex⟩
        rw [integerValue_hexadecimal hex found, Signed] at signed
        exact ⟨hash, signed.resolve_left Bool.false_ne_true, hex⟩
      · rintro ⟨hash, signed, hex⟩
        exact ⟨.inr signed, hash, hex⟩
    · apply not_congr
      rw [octal_iff]
      apply and_congr_right
      intro octal
      obtain ⟨-, bits, size, rfl⟩ :=
        integerValue_unsigned (by rw [octal]; decide) (by rw [octal]; decide) found
      rw [setWidth_setWidth_toNat _ (vaBits_le size)]
      constructor
      · intro large
        exact ⟨bits, size, large⟩
      · rintro ⟨other, otherSize, large⟩
        rw [size, Option.some.injEq] at otherSize
        rwa [otherSize]

/-! ## Runs -/

/-- What `vcbprintf` leaves with a callback that takes every string. -/
theorem vcbprintf_takesAll (callback : Option Callback)
    (takesAll : TakesAll (callback.getD callbackPlaceholder)) (format : CString)
    (arguments : Arguments) :
    ∃ result final, vcbprintf callback (some format) arguments = some (result, final) ∧
      Printed PrintState.start final (steps arguments 0 false format.bytes) ∧
      result = if final.written > intMax then -1 else (final.written : Int) := by
  obtain ⟨final, run, printed⟩ := mainLoop_takesAll arguments takesAll PrintState.start
    (CString.At.zero format) (Nat.lt_succ_self format.bytes.length) (by decide)
  rw [vcbprintf]
  simp only [run, Option.bind_eq_bind, Option.bind_some, if_true]
  refine ⟨_, final, ?_, printed, rfl⟩
  split <;> rfl

/-- What `vcbprintf` leaves with any callback. -/
theorem vcbprintf_taken {callback : Option Callback} {format : CString} {arguments : Arguments}
    {result : Int} {final : PrintState}
    (run : vcbprintf callback (some format) arguments = some (result, final)) :
    ∃ taken, taken <+: steps arguments 0 false format.bytes ∧
      Took PrintState.start final taken := by
  rw [vcbprintf] at run
  simp only [Option.bind_eq_bind, Option.bind_eq_some_iff] at run
  obtain ⟨⟨state, reached⟩, loop, rest⟩ := run
  have same : state = final := by
    split_ifs at rest <;> cases rest <;> rfl
  rw [← same]
  exact mainLoop_taken (CString.At.zero format) loop

/-- The writes of a state lie inside `prefix` and `buf`. -/
def PrintState.Inside (state : PrintState) : Prop :=
  (∀ index ∈ state.prefixWrites, index < 3) ∧ ∀ index ∈ state.bufWrites, index < 21

/-- A run from the start stays inside the arrays if its steps do. -/
theorem Took.inside_iff {final : PrintState} {taken : List Step}
    (took : Took PrintState.start final taken) :
    final.Inside ↔ ∀ s ∈ taken, s.emission.Inside := by
  rw [PrintState.Inside, took.prefixWrites, took.bufWrites]
  simp only [PrintState.start, List.nil_append, List.mem_flatMap, Emission.Inside]
  constructor
  · rintro ⟨prefixInside, bufInside⟩ s member
    exact ⟨fun index place => prefixInside index ⟨s, member, place⟩,
      fun index place => bufInside index ⟨s, member, place⟩⟩
  · intro inside
    refine ⟨?_, ?_⟩
    · rintro index ⟨s, member, place⟩
      exact (inside s member).1 index place
    · rintro index ⟨s, member, place⟩
      exact (inside s member).2 index place

theorem steps_inside_iff (arguments : Arguments) (format : CString) :
    (∀ s ∈ steps arguments 0 false format.bytes, s.emission.Inside) ↔
      ∀ conv ∈ conversions arguments format, ¬ conv.Overruns arguments := by
  apply forall_steps_iff
  · intro s block next text
    rw [text]
    exact .of_no_writes _ _ _
  · intro s conv known
    exact convert_inside_iff known

/-- **When a format is printed inside the arrays.** For every format and argument list, no run
writes outside `prefix[3]` or `buf[21]`, whatever the callback returns, exactly when no conversion
puts both a sign and `0x` into the prefix and none prints an octal value of 2^60 or more. -/
theorem vcbprintf_inside_iff (format : CString) (arguments : Arguments) :
    (∀ callback result final, vcbprintf callback (some format) arguments = some (result, final) →
      final.Inside) ↔
      ∀ conv ∈ conversions arguments format, ¬ conv.Overruns arguments := by
  rw [← steps_inside_iff]
  constructor
  · intro inside
    obtain ⟨result, final, run, printed, -⟩ :=
      vcbprintf_takesAll none callbackPlaceholder_takesAll format arguments
    exact printed.toTook.inside_iff.mp (inside none result final run)
  · intro inside callback result final run
    obtain ⟨taken, first, took⟩ := vcbprintf_taken run
    rw [took.inside_iff]
    intro s member
    exact inside s (first.subset member)

/-- `%+#x` writes the final zero of the prefix at the index 3, and `%llo` of the greatest value
writes digits at the index 21. -/
theorem vcbprintf_overrun :
    (∃ result final, vcbprintf none (some (.ofBytes [0x25, 0x2B, 0x23, 0x78] (by decide)))
      (.constant 0) = some (result, final) ∧ 3 ∈ final.prefixWrites) ∧
    ∃ result final, vcbprintf none (some (.ofBytes [0x25, 0x6C, 0x6C, 0x6F] (by decide)))
      (.constant 0xFFFFFFFFFFFFFFFF) = some (result, final) ∧ 21 ∈ final.bufWrites := by
  have hexadecimal : (vcbprintf none (some (.ofBytes [0x25, 0x2B, 0x23, 0x78] (by decide)))
      (.constant 0)).map (fun run => decide (3 ∈ run.2.prefixWrites)) = some true := by
    decide +kernel
  have octal : (vcbprintf none (some (.ofBytes [0x25, 0x6C, 0x6C, 0x6F] (by decide)))
      (.constant 0xFFFFFFFFFFFFFFFF)).map (fun run => decide (21 ∈ run.2.bufWrites)) = some true := by
    decide +kernel
  obtain ⟨⟨result, final⟩, run, outside⟩ := Option.map_eq_some_iff.mp hexadecimal
  obtain ⟨⟨other, last⟩, otherRun, otherOutside⟩ := Option.map_eq_some_iff.mp octal
  exact ⟨⟨result, final, run, of_decide_eq_true outside⟩,
    other, last, otherRun, of_decide_eq_true otherOutside⟩

end VineyardLoader
