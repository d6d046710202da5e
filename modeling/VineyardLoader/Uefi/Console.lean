import VineyardLoader.Foundation.Effects
import VineyardLoader.Foundation.Memory
import VineyardLoader.Lib.IsoC

/-!
# Text on the console

`efi_printf` gives every string that `vcbprintf` prints to `efi_printn`, which shows its bytes one by
one: each byte is a unit of 16 bits, and a carriage return comes before a newline. The console may
refuse a unit. Then the rest of this string is left out, and the next string is shown nevertheless,
since the callback does not look at the status.

So what is seen are units of the text in order, and all of them if nothing is refused
(`efiPrintf_shows`). Zero bytes, which only `%c` prints, are not seen, and a byte from 128 on is
extended as a signed number.
-/

set_option autoImplicit false

namespace VineyardLoader

/-! ## The functions -/

/-- Whether `OutputString` shows a unit after what is on the console. -/
abbrev Console := List Nat → Nat → Bool

/-- Programs that show units. They stop with a status that is an error. -/
abbrev Printing := EStateM Unit (List Nat)

/-- `OutputString` with one unit and a zero after it. -/
def outputString (console : Console) (unit : Nat) : Printing Unit := do
  let shown ← get
  if console shown unit then set (shown ++ [unit]) else throw ()

/-- `(uint16_t) *s`, where a `char` is signed. -/
def charUnit (byte : UInt8) : Nat := (byte.toBitVec.signExtend 16).toNat

/-- The carriage return before a newline. -/
def outputReturn (console : Console) (byte : UInt8) : Printing Unit :=
  if byte = 0x0A then outputString console 0x0D else return

/-- The loop of `efi_printn`, for the number of bytes that are left. -/
def efiPrintnLoop (console : Console) (memory : Memory) : Nat → Nat → Printing Unit
  -- the byte after the last one is read here, before the count is looked at
  | 0, _ => return
  | left + 1, s =>
      if memory s = 0 then return
      else do
        outputReturn console (memory s)
        outputString console (charUnit (memory s))
        efiPrintnLoop console memory left (s + 1)

/-- `efi_printn`. -/
def efiPrintn (console : Console) (memory : Memory) (str n : Nat) : Printing Unit :=
  efiPrintnLoop console memory n str

/-- `efi_print`. -/
def efiPrint (console : Console) (str : CString) : Printing Unit :=
  efiPrintn console (fun index => str.bytes.getD index 0) 0 str.bytes.length

/-- What `callback` returns. -/
def printCallback : Callback := fun calls => (calls.getLastD []).length

/-- The calls of `efi_printn` by `callback`, whose status is not looked at. -/
def showCalls (console : Console) (calls : List (List UInt8)) (shown : List Nat) : List Nat :=
  calls.foldl (fun shown call =>
    finalState (efiPrintn console (fun index => call.getD index 0) 0 call.length shown)) shown

/-- `efi_printf`: what it returns, and what is on the console then. -/
def efiPrintf (console : Console) (format : CString) (arguments : Arguments) (shown : List Nat) :
    Option (Int × List Nat) := do
  let (ret, state) ← vcbprintf (some printCallback) (some format) arguments
  return (ret, showCalls console state.calls shown)

/-! ## What is shown -/

/-- The units of a byte. -/
def byteUnits (byte : UInt8) : List Nat :=
  if byte = 0x0A then [0x0D, charUnit byte] else [charUnit byte]

/-- A program that shows a text, or the start of it on a console that refuses a unit. -/
def Shows (console : Console) (program : Printing Unit) (text : List Nat) : Prop :=
  ∀ shown, program shown = .ok () (shown ++ text) ∨
    (∃ start, start <+: text ∧ program shown = .error () (shown ++ start)) ∧
      ∃ before unit, console before unit = false

namespace Shows

variable {console : Console} {first second : Printing Unit} {text more : List Nat}

theorem nothing : Shows console (return) [] := fun shown => .inl (by rw [List.append_nil]; rfl)

theorem bind (here : Shows console first text) (later : Shows console second more) :
    Shows console (do first; second) (text ++ more) := by
  intro shown
  rcases here shown with run | ⟨⟨start, isStart, run⟩, refuses⟩
  · rw [bind_of_ok run]
    rcases later (shown ++ text) with run | ⟨⟨start, isStart, run⟩, refuses⟩
    · exact .inl (by rw [run, List.append_assoc])
    · refine .inr ⟨⟨text ++ start, (List.prefix_append_right_inj _).mpr isStart, ?_⟩, refuses⟩
      rw [run, List.append_assoc]
  · refine .inr ⟨⟨start, isStart.trans (List.prefix_append _ _), ?_⟩, refuses⟩
    rw [bind_run, run]

theorem unit (unit : Nat) : Shows console (outputString console unit) [unit] := by
  intro shown
  rw [outputString, bind_of_ok (get_run _)]
  cases answer : console shown unit with
  | true => exact .inl rfl
  | false => exact .inr ⟨⟨[], List.nil_prefix, by rw [List.append_nil]; rfl⟩, shown, unit, answer⟩

/-- What is on the console after the program. -/
theorem finalState (shows_ : Shows console first text) (shown : List Nat) :
    ∃ start, start <+: text ∧ finalState (first shown) = shown ++ start ∧
      ((∀ before unit, console before unit = true) → start = text) := by
  rcases shows_ shown with run | ⟨⟨start, isStart, run⟩, before, unit, refuses⟩
  · exact ⟨text, List.prefix_rfl, by rw [run]; rfl, fun _ => rfl⟩
  · refine ⟨start, isStart, by rw [run]; rfl, fun takes => ?_⟩
    rw [takes] at refuses
    cases refuses

end Shows

theorem outputByte_shows (console : Console) (byte : UInt8) :
    Shows console (do outputReturn console byte; outputString console (charUnit byte))
      (byteUnits byte) := by
  rw [outputReturn, byteUnits]
  split
  · exact (Shows.unit 0x0D).bind (Shows.unit _)
  · exact Shows.nothing.bind (Shows.unit _)

/-- `efi_printn` shows its bytes up to the first zero, whatever comes after them. -/
theorem efiPrintnLoop_shows (console : Console) (memory : Memory) :
    ∀ left s, Shows console (efiPrintnLoop console memory left s)
      (((memory.bytes s left).takeWhile (· ≠ 0)).flatMap byteUnits) := by
  intro left
  induction left with
  | zero => exact fun _ => Shows.nothing
  | succ left ih =>
      intro s
      have bytes : memory.bytes s (left + 1) = memory s :: memory.bytes (s + 1) left := by
        rw [Nat.add_comm, Memory.bytes_add]
        rfl
      rw [efiPrintnLoop, bytes]
      by_cases ends : memory s = 0
      · rw [if_pos ends, List.takeWhile_cons_of_neg (by simp [ends])]
        exact Shows.nothing
      · rw [if_neg ends, List.takeWhile_cons_of_pos (by simp [ends]), List.flatMap_cons, ← bind_assoc]
        exact (outputByte_shows console (memory s)).bind (ih (s + 1))

/-- `efi_print` shows the whole string. -/
theorem efiPrint_shows (console : Console) (str : CString) :
    Shows console (efiPrint console str) (str.bytes.flatMap byteUnits) := by
  have shown := efiPrintnLoop_shows console (fun index => str.bytes.getD index 0) str.bytes.length 0
  rwa [bytes_getD, List.takeWhile_eq_self_iff.mpr
    fun byte member => decide_eq_true (str.nonzero byte member)] at shown

/-! ## Strings without an inner zero -/

/-- A string that is shown as a whole, but for its zeros. -/
def SeenWhole (call : List UInt8) : Prop := call.takeWhile (· ≠ 0) = call.filter (· ≠ 0)

namespace SeenWhole

theorem of_nonzero {call : List UInt8} (nonzero : ∀ byte ∈ call, byte ≠ 0) : SeenWhole call := by
  have whole : ∀ byte ∈ call, decide (byte ≠ 0) = true :=
    fun byte member => decide_eq_true (nonzero byte member)
  rw [SeenWhole, List.takeWhile_eq_self_iff.mpr whole, List.filter_eq_self.mpr whole]

theorem single (byte : UInt8) : SeenWhole [byte] := by
  by_cases zero : byte = 0 <;> simp [SeenWhole, zero]

end SeenWhole

theorem integerPrefix_nonzero (flags : Flags) (negative : Bool) (specifier : UInt8) :
    ∀ byte ∈ integerPrefix flags negative specifier, byte ≠ 0 := by
  intro byte member
  rcases List.mem_append.mp member with sign | hash
  · split_ifs at sign <;> simp at sign <;> subst sign <;> decide
  · split_ifs at hash with hex
    · rcases hex.2 with rfl | rfl <;> simp at hash <;> rcases hash with rfl | rfl <;> decide
    · simp at hash
      subst hash
      decide
    · cases hash

/-- A symbol that is printed some number of times, or not at all. -/
theorem padding_nonzero {condition : Prop} [Decidable condition] {count : Nat} {symbol : UInt8}
    {call : List UInt8} (member : call ∈ if condition then List.replicate count [symbol] else [])
    (nonzero : symbol ≠ 0) : ∀ byte ∈ call, byte ≠ 0 := by
  intro byte inside
  split at member
  · rw [List.eq_of_mem_replicate member, List.mem_singleton] at inside
    rwa [inside]
  · cases member

/-- No string of an integer has a zero byte. -/
theorem convertInteger_nonzero (spec : Spec) (args : Nat) (specifier : UInt8) (value : BitVec 64)
    (negative : Bool) :
    ∀ call ∈ (convertInteger spec args specifier value negative).calls, ∀ byte ∈ call,
      byte ≠ 0 := by
  intro call member
  simp only [convertInteger, List.mem_append, List.mem_singleton, or_assoc] at member
  rcases member with before | rfl | zeros | least | rfl | after
  · exact padding_nonzero before (by decide)
  · exact integerPrefix_nonzero _ _ _
  · exact padding_nonzero zeros (by decide)
  · exact padding_nonzero least (by decide)
  · intro byte inside zero
    have digit : byte ∈ integerDigits spec specifier value := by
      rw [integerDigits_eq]
      exact List.mem_append_right _ inside
    have high := le_of_mem_numeral digit
    rw [zero] at high
    exact absurd high (by decide)
  · exact padding_nonzero after (by decide)

theorem convert_seenWhole {arguments : Arguments} {spec : Spec} {args : Nat} {c : UInt8}
    {emission : Emission} (known : convert arguments spec args c = some emission) :
    ∀ call ∈ emission.calls, SeenWhole call := by
  intro call member
  by_cases integer : IsInteger c
  · rw [convert_integer arguments spec args integer] at known
    obtain ⟨⟨value, negative⟩, -, rfl⟩ := Option.map_eq_some_iff.mp known
    exact SeenWhole.of_nonzero (convertInteger_nonzero _ _ _ _ _ call member)
  rw [convert] at known
  split_ifs at known with percent string character
  · cases known
    rw [List.mem_singleton.mp member]
    exact SeenWhole.single c
  · cases known
    rw [List.mem_singleton.mp member]
    exact SeenWhole.of_nonzero fun byte inside =>
      (arguments.string _).nonzero byte (List.mem_of_mem_take inside)
  · cases known
    rw [List.mem_singleton.mp member]
    exact SeenWhole.single _

/-- The text in a step is a part of what is left of the format. -/
theorem textStep_seenWhole {rest : List UInt8} (nonzero : ∀ byte ∈ rest, byte ≠ 0) (args : Nat)
    (bad : Bool) : ∀ call ∈ (textStep rest args bad).emission.calls, SeenWhole call := by
  intro call member
  rw [List.mem_singleton.mp member]
  apply SeenWhole.of_nonzero
  intro byte inside
  apply nonzero
  rw [← takeBlock_append rest]
  exact List.mem_append_left _ inside

theorem step_seenWhole (arguments : Arguments) (args : Nat) (bad : Bool) {c : UInt8}
    {rest : List UInt8} (nonzero : ∀ byte ∈ c :: rest, byte ≠ 0) :
    ∀ call ∈ (step arguments args bad (c :: rest)).emission.calls, SeenWhole call := by
  rw [step]
  split_ifs with text escaped
  · exact textStep_seenWhole nonzero args bad
  · exact textStep_seenWhole (fun byte inside => nonzero byte (List.mem_cons_of_mem _ inside)) args bad
  · exact textStep_seenWhole nonzero args true
  · rcases conversionStep_cases arguments args rest with ⟨emission, known, made⟩ | ⟨-, made⟩
    · rw [made]
      exact convert_seenWhole known
    · have percent : c = 0x25 := not_not.mp text
      rw [made, ← percent]
      exact textStep_seenWhole nonzero _ true

/-- Every string that a format prints is shown as a whole, but for its zeros. -/
theorem printedCalls_seenWhole {format : CString} (arguments : Arguments) (args : Nat) (bad : Bool)
    (rest : List UInt8) : ∀ {cursor : Nat}, format.At cursor rest →
      ∀ call ∈ printedCalls (steps arguments args bad rest), SeenWhole call := by
  induction args, bad, rest using steps.induct arguments with
  | case1 args bad =>
      intro cursor here call member
      rw [steps] at member
      cases member
  | case2 args bad c rest ih =>
      intro cursor here call member
      obtain ⟨next, -, after⟩ := turn_eq arguments args bad here
      rw [steps, printedCalls, List.flatMap_cons, List.mem_append] at member
      rcases member with first | later
      · exact step_seenWhole arguments args bad
          (fun byte inside => format.nonzero byte (here.mem inside)) call first
      · exact ih after call later

/-! ## A whole text -/

/-- The strings that `vcbprintf` gives to the callback are shown one after the other. -/
theorem showCalls_shows (console : Console) :
    ∀ {calls : List (List UInt8)} (shown : List Nat), (∀ call ∈ calls, SeenWhole call) →
      ∃ text, showCalls console calls shown = shown ++ text ∧
        text.Sublist ((calls.flatten.filter (· ≠ 0)).flatMap byteUnits) ∧
        ((∀ before unit, console before unit = true) →
          text = (calls.flatten.filter (· ≠ 0)).flatMap byteUnits) := by
  intro calls
  induction calls with
  | nil =>
      intro shown _
      exact ⟨[], (List.append_nil _).symm, List.nil_sublist _, fun _ => rfl⟩
  | cons call calls ih =>
      intro shown whole
      have seen : SeenWhole call := whole call List.mem_cons_self
      have shows_ := efiPrintnLoop_shows console (fun index => call.getD index 0) call.length 0
      rw [bytes_getD, seen] at shows_
      obtain ⟨start, isStart, first, all⟩ := shows_.finalState shown
      obtain ⟨text, later, part, rest⟩ := ih (shown ++ start)
        fun other member => whole other (List.mem_cons_of_mem _ member)
      refine ⟨start ++ text, ?_, ?_, ?_⟩
      · rw [← List.append_assoc, ← later, ← first]
        rfl
      · rw [List.flatten_cons, List.filter_append, List.flatMap_append]
        exact isStart.sublist.append part
      · intro takes
        rw [List.flatten_cons, List.filter_append, List.flatMap_append, all takes, rest takes]

theorem printCallback_takesAll : TakesAll printCallback := callbackPlaceholder_takesAll

/-- **What `efi_printf` shows.** For every console, format and argument list, `efi_printf` returns
what `vcbprintf` returns to a callback that only counts. What is seen are units of the bytes that
`vcbprintf` prints, without the zeros, in order and with a carriage return before each newline, and
all of them if the console refuses nothing. -/
theorem efiPrintf_shows (console : Console) (format : CString) (arguments : Arguments)
    (shown : List Nat) :
    ∃ ret state text, vcbprintf none (some format) arguments = some (ret, state) ∧
      efiPrintf console format arguments shown = some (ret, shown ++ text) ∧
      text.Sublist ((state.calls.flatten.filter (· ≠ 0)).flatMap byteUnits) ∧
      ((∀ before unit, console before unit = true) →
        text = (state.calls.flatten.filter (· ≠ 0)).flatMap byteUnits) := by
  obtain ⟨ret, state, run, printed, -⟩ := vcbprintf_takesAll (some printCallback)
    printCallback_takesAll format arguments
  have calls : state.calls = printedCalls (steps arguments 0 false format.bytes) := printed.calls
  obtain ⟨text, seen, part, all⟩ := showCalls_shows console shown (calls ▸
    printedCalls_seenWhole arguments 0 false format.bytes (CString.At.zero format))
  refine ⟨ret, state, text, run, ?_, part, all⟩
  rw [efiPrintf, run, ← seen]
  rfl

end VineyardLoader
