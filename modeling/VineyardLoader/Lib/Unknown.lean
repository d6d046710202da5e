import VineyardLoader.Lib.Arrays
import VineyardLoader.Lib.Grammar

/-!
# Conversions that `vcbprintf` does not know

From the first conversion that is not supported, a format is printed as it is written, with `%%`
as one percent sign (`printout_bad`). What comes before is printed as if nothing came after it
(`printout_conversion`). So a format is printed like its part before that conversion, and then its
rest as it is written (`printout_unsupported`).
-/

set_option autoImplicit false

namespace VineyardLoader

/-! ## Where conversions end -/

/-- The length modifier of a conversion, and what is left from its specifier on. -/
def conversionEnd (rest : List UInt8) : Length × List UInt8 :=
  let rest := (takeNumber (takeFlags rest Flags.none).2 0).2
  let rest := if rest.headD 0 = 0x2A then rest.tail else rest
  takeLength (takePrecision rest).2

/-- Whether the width of a conversion is given by `*`. -/
def hasStar (rest : List UInt8) : Bool :=
  (takeNumber (takeFlags rest Flags.none).2 0).2.headD 0 == 0x2A

/-- Where a conversion ends does not depend on the arguments. -/
theorem specOf_end (arguments : Arguments) (args : Nat) (rest : List UInt8) :
    (specOf arguments args rest).1.length = (conversionEnd rest).1 ∧
      (specOf arguments args rest).2.1 = (conversionEnd rest).2 ∧
      (specOf arguments args rest).2.2 = if hasStar rest then args + 1 else args := by
  simp only [specOf, takeWidth, conversionEnd, hasStar, beq_iff_eq]
  split <;> exact ⟨rfl, rfl, rfl⟩

theorem conversionEnd_length (rest : List UInt8) :
    (conversionEnd rest).2.length ≤ rest.length := by
  rw [← (specOf_end (.constant 0) 0 rest).2.1]
  exact specOf_length _ _ _

/-- The index of the first conversion that is not supported. -/
def unsupportedOffset : List UInt8 → Option Nat
  | [] => none
  | c :: rest =>
      if c ≠ 0x25 then (unsupportedOffset rest).map (· + 1)
      else if rest.headD 0 = 0x25 then (unsupportedOffset rest.tail).map (· + 2)
      else if Supported (conversionEnd rest).1 ((conversionEnd rest).2.headD 0) then
        (unsupportedOffset (conversionEnd rest).2.tail).map
          (· + (rest.length + 1 - (conversionEnd rest).2.tail.length))
      else some 0
termination_by rest => rest.length
decreasing_by
  · exact Nat.lt_succ_self _
  · rw [List.length_tail, List.length_cons]
    omega
  · have shorter := conversionEnd_length rest
    rw [List.length_tail, List.length_cons]
    omega

/-- Text with every `%%` as one percent sign, from the left to the right. -/
def collapse : List UInt8 → List UInt8
  | [] => []
  | [c] => [c]
  | c :: d :: rest => if c = 0x25 ∧ d = 0x25 then 0x25 :: collapse rest else c :: collapse (d :: rest)

/-! ## Printouts -/

/-- What steps print and write, and the argument after them. -/
structure Printout where
  printed : List UInt8
  args : Nat
  prefixWrites : List Nat
  bufWrites : List Nat
deriving DecidableEq

/-- A printout after an emission. -/
def Emission.before (emission : Emission) (later : Printout) : Printout where
  printed := emission.calls.flatten ++ later.printed
  args := later.args
  prefixWrites := emission.prefixWrites ++ later.prefixWrites
  bufWrites := emission.bufWrites ++ later.bufWrites

/-- What is printed and written from the front of what is left of a format to its end. -/
def printout (arguments : Arguments) (args : Nat) (bad : Bool) (rest : List UInt8) : Printout where
  printed := (printedCalls (steps arguments args bad rest)).flatten
  args := argsAfter args (steps arguments args bad rest)
  prefixWrites := (steps arguments args bad rest).flatMap fun s => s.emission.prefixWrites
  bufWrites := (steps arguments args bad rest).flatMap fun s => s.emission.bufWrites

section Printouts

variable (arguments : Arguments) (args : Nat) (bad : Bool)

theorem printout_nil : printout arguments args bad [] = ⟨[], args, [], []⟩ := by
  rw [printout, steps]
  rfl

theorem printout_cons (c : UInt8) (rest : List UInt8) :
    printout arguments args bad (c :: rest) =
      (step arguments args bad (c :: rest)).emission.before
        (printout arguments (step arguments args bad (c :: rest)).emission.args
          (step arguments args bad (c :: rest)).badConversion
          (step arguments args bad (c :: rest)).rest) := by
  rw [printout, steps, Emission.before, printout]
  simp [printedCalls, argsAfter]

/-- A printout after text. -/
theorem printout_textStep (c : UInt8) (rest : List UInt8) :
    (textStep (c :: rest) args bad).emission.before
        (printout arguments (textStep (c :: rest) args bad).emission.args
          (textStep (c :: rest) args bad).badConversion (textStep (c :: rest) args bad).rest) =
      (textEmission [c] args).before (printout arguments args bad rest) := by
  cases rest with
  | nil => rfl
  | cons d rest =>
      by_cases percent : d = 0x25
      · simp [textStep, takeBlock, textEmission, isText, percent]
      · have stepped : step arguments args bad (d :: rest) = textStep (d :: rest) args bad := by
          rw [step, if_pos percent]
        have text : isText d = true := bne_iff_ne.mpr percent
        rw [printout_cons, stepped]
        simp [textStep, takeBlock, textEmission, Emission.before, List.takeWhile_cons_of_pos text,
          List.dropWhile_cons_of_pos text]

/-- Text is printed byte by byte. -/
theorem printout_text {c : UInt8} (text : c ≠ 0x25) (rest : List UInt8) :
    printout arguments args bad (c :: rest) =
      (textEmission [c] args).before (printout arguments args bad rest) := by
  rw [printout_cons, step, if_pos text, printout_textStep]

theorem printout_escaped (rest : List UInt8) :
    printout arguments args bad (0x25 :: 0x25 :: rest) =
      (textEmission [0x25] args).before (printout arguments args bad rest) := by
  rw [printout_cons, step, if_neg (by decide), List.headD_cons, if_pos rfl, printout_textStep]

/-- A percent sign after a conversion that is not known. -/
theorem printout_bad_percent {rest : List UInt8} (single : rest.headD 0 ≠ 0x25) :
    printout arguments args true (0x25 :: rest) =
      (textEmission [0x25] args).before (printout arguments args true rest) := by
  rw [printout_cons, step, if_neg (by decide), if_neg single, if_pos rfl, printout_textStep]

/-- **After a conversion that is not known everything is text**, and no argument is read. -/
theorem printout_bad (rest : List UInt8) :
    printout arguments args true rest = ⟨collapse rest, args, [], []⟩ := by
  induction rest using collapse.induct with
  | case1 => rw [printout_nil, collapse]
  | case2 c =>
      by_cases percent : c = 0x25
      · rw [percent, printout_bad_percent arguments args (by decide), printout_nil]
        rfl
      · rw [printout_text arguments args true percent, printout_nil]
        rfl
  | case3 c d rest escaped ih =>
      obtain ⟨rfl, rfl⟩ := escaped
      rw [printout_escaped, ih, collapse, if_pos ⟨rfl, rfl⟩]
      rfl
  | case4 c d rest other ih =>
      rw [collapse, if_neg other]
      by_cases percent : c = 0x25
      · subst percent
        have single : (d :: rest).headD 0 ≠ 0x25 := fun second => other ⟨rfl, second⟩
        rw [printout_bad_percent arguments args single, ih]
        rfl
      · rw [printout_text arguments args true percent, ih]
        rfl

/-- A conversion that is known is printed the same whatever comes after it. -/
theorem printout_conversion {text : ConversionText} {c : UInt8} {emission : Emission}
    (known : convert arguments (text.spec arguments args) (text.argsAfter args) c = some emission)
    (supported : Supported text.length c) (single : (text.bytes ++ [c]).head? ≠ some 0x25)
    (rest : List UInt8) :
    printout arguments args false (0x25 :: (text.bytes ++ c :: rest)) =
      emission.before (printout arguments emission.args false rest) := by
  rw [printout_cons, step_conversion arguments args known supported single]

/-- The step from a conversion that is not known prints a block of text from its percent sign on. -/
theorem step_unknown {rest : List UInt8} (single : rest.headD 0 ≠ 0x25)
    (unknown : ¬ Supported (conversionEnd rest).1 ((conversionEnd rest).2.headD 0)) :
    step arguments args false (0x25 :: rest) =
      textStep (0x25 :: rest) (if hasStar rest then args + 1 else args) true := by
  obtain ⟨length, left, next⟩ := specOf_end arguments args rest
  have none_ : convert arguments (specOf arguments args rest).1 (specOf arguments args rest).2.2
      ((specOf arguments args rest).2.1.headD 0) = none := by
    rw [← Option.not_isSome_iff_eq_none, convert_isSome_iff, length, left]
    exact unknown
  rw [step, if_neg (by decide), if_neg single, if_neg Bool.false_ne_true,
    conversionStep_of_none none_, next]

/-- A conversion that is not known is printed as it is written, and so is what comes after it. -/
theorem printout_unknown {rest : List UInt8} (single : rest.headD 0 ≠ 0x25)
    (unknown : ¬ Supported (conversionEnd rest).1 ((conversionEnd rest).2.headD 0)) :
    printout arguments args false (0x25 :: rest) =
      ⟨collapse (0x25 :: rest), if hasStar rest then args + 1 else args, [], []⟩ := by
  rw [printout_cons, step_unknown arguments args single unknown, printout_textStep,
    ← printout_bad_percent _ _ single, printout_bad]

end Printouts

/-! ## The first conversion that is not supported -/

/-- The first part of a printout, and then text. -/
def Printout.thenText (first : Printout) (text : List UInt8) (args : Nat) : Printout where
  printed := first.printed ++ text
  args := first.args + args
  prefixWrites := first.prefixWrites
  bufWrites := first.bufWrites

theorem Emission.before_thenText (emission : Emission) (later : Printout) (text : List UInt8)
    (args : Nat) :
    emission.before (later.thenText text args) = (emission.before later).thenText text args := by
  simp [Emission.before, Printout.thenText]

/-- A supported conversion as it is written, with what it prints. -/
theorem exists_supported (arguments : Arguments) (args : Nat) {rest : List UInt8}
    (single : rest.headD 0 ≠ 0x25)
    (supported : Supported (conversionEnd rest).1 ((conversionEnd rest).2.headD 0)) :
    ∃ (text : ConversionText) (c : UInt8) (after : List UInt8) (emission : Emission),
      rest = text.bytes ++ c :: after ∧ (conversionEnd rest).2 = c :: after ∧
      Supported text.length c ∧
      convert arguments (text.spec arguments args) (text.argsAfter args) c = some emission ∧
      (text.bytes ++ [c]).head? ≠ some 0x25 := by
  obtain ⟨text, left, written, taken⟩ := exists_text rest
  obtain ⟨lengthEnd, leftEnd, -⟩ := specOf_end arguments args rest
  rw [taken] at lengthEnd leftEnd
  rw [← lengthEnd, ← leftEnd] at supported
  obtain ⟨c, after, rfl⟩ : ∃ c after, left = c :: after :=
    ⟨left.headD 0, left.tail, cons_tail_of_headD rfl supported.ne_zero⟩
  obtain ⟨emission, known⟩ := Option.isSome_iff_exists.mp
    ((convert_isSome_iff arguments (text.spec arguments args) (text.argsAfter args) c).mpr
      supported)
  refine ⟨text, c, after, emission, written, leftEnd.symm, supported, known, fun escaped => ?_⟩
  apply single
  rw [written, ← List.singleton_append, ← List.append_assoc]
  cases front : text.bytes ++ [c] with
  | nil => exact absurd front (by simp)
  | cons first others =>
      rw [front] at escaped
      exact Option.some.inj escaped

/-- **From the first conversion that is not supported, a format is printed as it is written.**
What comes before it is printed as if nothing came after it. -/
theorem printout_unsupported (arguments : Arguments) {bytes : List UInt8} :
    ∀ {args k : Nat}, unsupportedOffset bytes = some k →
      printout arguments args false bytes =
        (printout arguments args false (bytes.take k)).thenText (collapse (bytes.drop k))
          (if hasStar (bytes.drop (k + 1)) then 1 else 0) := by
  induction bytes using unsupportedOffset.induct with
  | case1 =>
      intro args k found
      rw [unsupportedOffset] at found
      cases found
  | case2 c rest text ih =>
      intro args k found
      rw [unsupportedOffset, if_pos text] at found
      obtain ⟨later, foundLater, rfl⟩ := Option.map_eq_some_iff.mp found
      rw [printout_text arguments args false text, ih foundLater, Emission.before_thenText,
        List.take_succ_cons, printout_text arguments args false text]
      rfl
  | case3 c rest percent escaped ih =>
      intro args k found
      rw [unsupportedOffset, if_neg percent, if_pos escaped] at found
      obtain ⟨later, foundLater, rfl⟩ := Option.map_eq_some_iff.mp found
      rw [cons_tail_of_headD escaped (by decide), not_not.mp percent, printout_escaped,
        ih foundLater, Emission.before_thenText, List.take_succ_cons, List.take_succ_cons,
        printout_escaped]
      rfl
  | case4 c rest percent single supported ih =>
      intro args k found
      rw [unsupportedOffset, if_neg percent, if_neg single, if_pos supported] at found
      obtain ⟨later, foundLater, rfl⟩ := Option.map_eq_some_iff.mp found
      obtain ⟨text, c', after, emission, written, left, allowed, known, notEscaped⟩ :=
        exists_supported arguments args single supported
      rw [left] at ih foundLater ⊢
      have place : later + (rest.length + 1 - (c' :: after).tail.length) =
          (0x25 :: (text.bytes ++ [c'])).length + later := by
        rw [written]
        simp only [List.length_append, List.length_cons, List.length_nil, List.tail_cons]
        omega
      have whole : c :: rest = (0x25 :: (text.bytes ++ [c'])) ++ after := by
        rw [written, not_not.mp percent]
        simp
      rw [place, whole, List.take_length_add_append, List.drop_length_add_append, Nat.add_assoc,
        List.drop_length_add_append]
      simp only [List.cons_append, List.append_assoc]
      rw [printout_conversion arguments args known allowed notEscaped,
        printout_conversion arguments args known allowed notEscaped, ← Emission.before_thenText]
      exact congrArg emission.before (ih foundLater)
  | case5 c rest percent single unknown =>
      intro args k found
      rw [unsupportedOffset, if_neg percent, if_neg single, if_neg unknown] at found
      cases found
      rw [not_not.mp percent, printout_unknown arguments args single unknown, List.take_zero,
        printout_nil]
      by_cases star : hasStar rest
      · simp [Printout.thenText, star]
      · simp [Printout.thenText, star]

/-- The first bytes of a string. -/
def CString.take (str : CString) (count : Nat) : CString where
  bytes := str.bytes.take count
  nonzero := fun byte member => str.nonzero byte (List.mem_of_mem_take member)
  small := (List.length_take_le' _ _).trans_lt str.small

/-- What a run printed and wrote. -/
def PrintState.printout (state : PrintState) : Printout :=
  ⟨state.calls.flatten, state.args, state.prefixWrites, state.bufWrites⟩

theorem vcbprintf_printout {callback : Option Callback}
    (takesAll : TakesAll (callback.getD callbackPlaceholder)) (format : CString)
    (arguments : Arguments) :
    ∃ result final, vcbprintf callback (some format) arguments = some (result, final) ∧
      final.printout = printout arguments 0 false format.bytes := by
  obtain ⟨result, final, run, printed, -⟩ := vcbprintf_takesAll callback takesAll format arguments
  refine ⟨result, final, run, ?_⟩
  rw [PrintState.printout, printed.calls, printed.args, printed.prefixWrites, printed.bufWrites]
  rfl

/-- **Conversions that are not known.** For every format and argument list, with a callback that
takes every string: if the first conversion that is not supported begins at the index `k`, then
what is printed is what the part of the format before `k` prints, and then the rest with every
`%%` as one percent sign. No argument is read from there on, but that the width of that conversion
takes one if it is `*`. Nothing is written to the arrays from there on. -/
theorem vcbprintf_unsupported (callback : Option Callback)
    (takesAll : TakesAll (callback.getD callbackPlaceholder)) (format : CString)
    (arguments : Arguments) (k : Nat) (unsupported : unsupportedOffset format.bytes = some k) :
    ∃ result final before first,
      vcbprintf callback (some format) arguments = some (result, final) ∧
      vcbprintf callback (some (format.take k)) arguments = some (before, first) ∧
      final.calls.flatten = first.calls.flatten ++ collapse (format.bytes.drop k) ∧
      final.args = first.args + (if hasStar (format.bytes.drop (k + 1)) then 1 else 0) ∧
      final.prefixWrites = first.prefixWrites ∧ final.bufWrites = first.bufWrites := by
  obtain ⟨result, final, run, whole⟩ := vcbprintf_printout takesAll format arguments
  obtain ⟨before, first, runFirst, part⟩ := vcbprintf_printout takesAll (format.take k) arguments
  have same : final.printout = first.printout.thenText (collapse (format.bytes.drop k))
      (if hasStar (format.bytes.drop (k + 1)) then 1 else 0) := by
    rw [whole, part]
    exact printout_unsupported arguments unsupported
  refine ⟨result, final, before, first, run, runFirst, ?_, ?_, ?_, ?_⟩
  · exact congrArg Printout.printed same
  · exact congrArg Printout.args same
  · exact congrArg Printout.prefixWrites same
  · exact congrArg Printout.bufWrites same

/-- The format `a%y%%` prints `a%y%`. -/
theorem vcbprintf_unsupported_sample :
    ∃ result final before first,
      vcbprintf none (some (.ofBytes [0x61, 0x25, 0x79, 0x25, 0x25] (by decide))) (.constant 0) =
        some (result, final) ∧
      vcbprintf none (some (.ofBytes [0x61] (by decide))) (.constant 0) = some (before, first) ∧
      final.calls.flatten = first.calls.flatten ++ [0x25, 0x79, 0x25] ∧
      final.args = first.args + 0 ∧
      final.prefixWrites = first.prefixWrites ∧ final.bufWrites = first.bufWrites :=
  vcbprintf_unsupported none callbackPlaceholder_takesAll
    (.ofBytes [0x61, 0x25, 0x79, 0x25, 0x25] (by decide)) (.constant 0) 1 (by
      show unsupportedOffset [0x61, 0x25, 0x79, 0x25, 0x25] = some 1
      rw [unsupportedOffset, if_pos (by decide), unsupportedOffset, if_neg (by decide),
        if_neg (by decide), if_neg (by decide)]
      rfl)

/-- The width of `%*y` takes an argument, though the conversion is not supported. -/
theorem vcbprintf_unsupported_star :
    unsupportedOffset [0x25, 0x2A, 0x79] = some 0 ∧
    (vcbprintf none (some (.ofBytes [0x25, 0x2A, 0x79] (by decide))) (.constant 0)).map
      (fun run => run.2.args) = some 1 ∧
    (vcbprintf none (some (.ofBytes [] (by decide))) (.constant 0)).map
      (fun run => run.2.args) = some 0 := by
  refine ⟨?_, by decide +kernel, by decide +kernel⟩
  rw [unsupportedOffset, if_neg (by decide), if_neg (by decide), if_neg (by decide)]

end VineyardLoader
