import VineyardLoader.Foundation.Picks
import VineyardLoader.Uefi.Machine
import VineyardLoader.Uefi.Text

/-!
# The choice of a network interface

`net_get_protocol` tries the handles with a network interface one after the other until one has
a link. To try no device twice it passes over a handle whose device path starts with that of the
latest handle tried.

The paths are strings of 16-bit units, and the length that goes into `memcmp` is a number of
units where `memcmp` counts bytes. So only the first half of the path is compared. A handle that
starts with the whole path is passed over, but others with it.

The choice is the right one exactly when the first half tells each handle that should be tried
apart from the one tried before (`netGetProtocol_rule_iff`).
-/

set_option autoImplicit false

namespace VineyardLoader

/-! ## Texts -/

/-- The loop of `memcmp` from an index on. -/
def memcmpLoop (str1 str2 : Memory) : Nat → Nat → Int
  | 0, _ => 0
  | count + 1, index =>
      if str1 index ≠ str2 index then ((str1 index).toNat : Int) - (str2 index).toNat
      else memcmpLoop str1 str2 count (index + 1)

/-- `memcmp`. -/
def memcmp (str1 str2 : Memory) (count : Nat) : Int := memcmpLoop str1 str2 count 0

theorem memcmpLoop_eq_zero_iff {str1 str2 : Memory} (count : Nat) :
    ∀ {index : Nat}, memcmpLoop str1 str2 count index = 0 ↔
      ∀ k, k < count → str1 (index + k) = str2 (index + k) := by
  induction count with
  | zero => simp [memcmpLoop]
  | succ count ih =>
      intro index
      rw [memcmpLoop]
      split
      · rename_i differ
        have value : (str1 index).toNat ≠ (str2 index).toNat :=
          fun equal => differ (UInt8.toNat_inj.mp equal)
        refine iff_of_false (by omega) fun agree => differ (agree 0 (Nat.succ_pos _))
      · rename_i equal
        rw [ih]
        constructor
        · intro rest k below
          cases k with
          | zero => exact not_not.mp equal
          | succ k =>
              have here := rest k (Nat.lt_of_succ_lt_succ below)
              rwa [Nat.add_assoc, Nat.add_comm 1 k] at here
        · intro agree k below
          have here := agree (k + 1) (Nat.succ_lt_succ below)
          rwa [Nat.add_comm k 1, ← Nat.add_assoc] at here

/-- The first bytes agree. -/
theorem memcmp_eq_zero_iff {str1 str2 : Memory} {count : Nat} :
    memcmp str1 str2 count = 0 ↔ ∀ k, k < count → str1 k = str2 k := by
  rw [memcmp, memcmpLoop_eq_zero_iff]
  simp only [Nat.zero_add]

/-- The text of a device path, with its length in units. -/
structure PathText where
  bytes : Memory
  length : Nat
  holds : HoldsText bytes 0 length
  small : length < 2 ^ 63

/-- `efi_strlen` of the text. -/
theorem PathText.efiStrlen_eq (text : PathText) : efiStrlen text.bytes 0 = some text.length :=
  efiStrlen_eq_some_iff.mpr ⟨text.small.trans (by decide), text.holds⟩

/-- The text starts with the whole of another. -/
def PathText.StartsWith (text other : PathText) : Prop :=
  ∀ k, k < 2 * other.length → text.bytes k = other.bytes k

/-! ## Handles -/

def efiNotFound : EfiStatus := .error 14
def efiAlreadyStarted : EfiStatus := .error 20

/-- What the firmware answers to the calls for one handle. -/
structure NicAnswers where
  handleProtocol : EfiStatus
  start : EfiStatus
  init : EfiStatus
  getStatus : EfiStatus
  mediaPresent : Bool

/-- A call that is made for a handle. -/
inductive NicCall where
  | handleProtocol
  | start
  | init
  | getStatus
  | closeProtocol
deriving Repr, DecidableEq

/-- A try of one handle: the calls, what is printed, and whether its interface is taken. -/
structure NicTry where
  calls : List NicCall
  message : String
  works : Bool
deriving Repr, DecidableEq

/-- The body of the loop of `net_get_protocol` for a handle that is tried. -/
def tryNic (answers : NicAnswers) : NicTry :=
  if answers.handleProtocol.isError then
    ⟨[.handleProtocol, .closeProtocol], ": failed to open (%zu)\n", false⟩
  else if answers.start.isError ∧ answers.start ≠ efiAlreadyStarted then
    ⟨[.handleProtocol, .start, .closeProtocol], ": failed to start (%zu)\n", false⟩
  else if answers.start ≠ efiAlreadyStarted ∧ answers.init.isError then
    ⟨[.handleProtocol, .start, .init, .closeProtocol],
      ": failed to initialize (%zu)\n", false⟩
  else
    let begun := if answers.start ≠ efiAlreadyStarted then
      [NicCall.handleProtocol, .start, .init] else [.handleProtocol, .start]
    if answers.getStatus.isError then
      ⟨begun ++ [.getStatus, .closeProtocol], ": failed to read status (%zu)\n", false⟩
    else if !answers.mediaPresent then
      ⟨begun ++ [.getStatus, .closeProtocol], ": no link detected\n", false⟩
    else ⟨begun ++ [.getStatus], ": link detected\n", true⟩

/-- The open, the start and its initialization, the status and the link are all right. -/
structure NicAnswers.Succeed (answers : NicAnswers) : Prop where
  opens : answers.handleProtocol.isError = false
  starts : answers.start = efiAlreadyStarted ∨
    answers.start.isError = false ∧ answers.init.isError = false
  status : answers.getStatus.isError = false
  link : answers.mediaPresent = true

/-- A handle is taken when all of its calls succeed, and its protocol is closed otherwise. -/
theorem tryNic_works_iff (answers : NicAnswers) :
    ((tryNic answers).works = true ↔ answers.Succeed) ∧
      (NicCall.closeProtocol ∈ (tryNic answers).calls ↔ (tryNic answers).works = false) := by
  rw [tryNic]
  split
  · rename_i closed
    exact ⟨iff_of_false (by decide) fun all => absurd (all.opens.symm.trans closed) (by decide),
      iff_of_true (by decide) rfl⟩
  · rename_i opens
    split
    · rename_i stopped
      refine ⟨iff_of_false (by decide) fun all => ?_, iff_of_true (by decide) rfl⟩
      rcases all.starts with already | started
      · exact stopped.2 already
      · exact absurd (started.1.symm.trans stopped.1) (by decide)
    · rename_i starts
      split
      · rename_i idle
        refine ⟨iff_of_false (by decide) fun all => ?_, iff_of_true (by decide) rfl⟩
        rcases all.starts with already | started
        · exact idle.1 already
        · exact absurd (started.2.symm.trans idle.2) (by decide)
      · rename_i initialized
        have begun : answers.start = efiAlreadyStarted ∨
            answers.start.isError = false ∧ answers.init.isError = false := by
          by_cases already : answers.start = efiAlreadyStarted
          · exact .inl already
          · exact .inr ⟨Bool.eq_false_iff.mpr fun stopped => starts ⟨stopped, already⟩,
              Bool.eq_false_iff.mpr fun idle => initialized ⟨already, idle⟩⟩
        dsimp only
        split
        · rename_i broken
          exact ⟨iff_of_false Bool.false_ne_true fun all =>
            absurd (all.status.symm.trans broken) (by decide), iff_of_true (by simp) rfl⟩
        · rename_i status
          split
          · rename_i dark
            refine ⟨iff_of_false Bool.false_ne_true fun all => ?_, iff_of_true (by simp) rfl⟩
            rw [all.link] at dark
            cases dark
          · rename_i link
            refine ⟨iff_of_true rfl ⟨Bool.eq_false_iff.mpr opens, begun,
              Bool.eq_false_iff.mpr status, by simpa using link⟩, iff_of_false ?_ Bool.noConfusion⟩
            split
            · decide
            · decide

/-- The handles with a network interface: how many `LocateHandle` puts into its buffer, or an
error; the texts of their device paths; and the answers for a handle after others were tried. -/
structure NicFirmware where
  locateHandle : Option Nat
  locateHandle_le : ∀ count, locateHandle = some count → count ≤ 32
  paths : Nat → PathText
  answers : List Nat → Nat → NicAnswers

variable (nics : NicFirmware)

/-- The test of `net_get_protocol` for a device that was tried already. -/
def SameDevice (i previous : Nat) : Prop :=
  memcmp (nics.paths i).bytes (nics.paths previous).bytes
    ((efiStrlen (nics.paths previous).bytes 0).getD 0) = 0

instance : DecidableRel (SameDevice nics) := fun _ _ => inferInstanceAs (Decidable (_ = _))

/-- Whether a handle is taken after others were tried. -/
def NicFirmware.works (tried : List Nat) (i : Nat) : Bool := (tryNic (nics.answers tried i)).works

/-- The result of `net_get_protocol`: its status, the handle whose interface is in `snp`, and
what the loop did. -/
structure NicSelection where
  status : EfiStatus
  snp : Option Nat
  run : Pick
deriving Repr, DecidableEq

/-- `net_get_protocol`. -/
def netGetProtocol : Except Halt NicSelection :=
  match nics.locateHandle with
  | none => .error .exit
  | some count =>
      let run := pickLoop (SameDevice nics) nics.works count 0 0 []
      .ok ⟨if run.chosen.isSome then .success else efiNotFound, run.chosen, run⟩

/-! ## The rule -/

/-- A handle is more of the same as another when its path starts with the whole path of that. -/
def Extends (i previous : Nat) : Prop := (nics.paths i).StartsWith (nics.paths previous)

/-- The handle that should be taken: the first, in order and none that extends the one tried
before it, for which the calls succeed. -/
def NicFirmware.Chosen (count i : Nat) : Prop :=
  0 < count ∧ Picks (Extends nics) nics.works count .first i

/-- Only handles that extend the latest one tried are passed over, and the result is that of the
rule. -/
structure SelectsByRule (count : Nat) (selection : NicSelection) : Prop where
  passed : ∀ i previous, (i, previous) ∈ selection.run.passed → Extends nics i previous
  snp : ∀ i, selection.snp = some i ↔ nics.Chosen count i
  found : selection.status = .success ↔ ∃ i, nics.Chosen count i
  notFound : selection.status = efiNotFound ↔ ¬ ∃ i, nics.Chosen count i

/-- Whenever a handle fails and the rule goes on to another, their paths differ in one of the
first bytes, as many as the path of the failed handle has units. -/
def ToldApart (count : Nat) : Prop :=
  ∀ state next, PickSteps (Extends nics) nics.works count .first state →
    PickStep (Extends nics) nics.works count state next →
      ∃ k, k < (nics.paths state.latest).length ∧
        (nics.paths next.latest).bytes k ≠ (nics.paths state.latest).bytes k

variable {nics}

/-- The test looks at as many bytes as the path has units. -/
theorem sameDevice_iff {i previous : Nat} :
    SameDevice nics i previous ↔
      ∀ k, k < (nics.paths previous).length →
        (nics.paths i).bytes k = (nics.paths previous).bytes k := by
  rw [SameDevice, memcmp_eq_zero_iff, PathText.efiStrlen_eq, Option.getD_some]

/-- A handle that extends the other passes the test. -/
theorem sameDevice_of_extends (i previous : Nat) (extension : Extends nics i previous) :
    SameDevice nics i previous :=
  sameDevice_iff.mpr fun k below => extension k (by omega)

theorem toldApart_iff {count : Nat} :
    ToldApart nics count ↔ NextApart (Extends nics) (SameDevice nics) nics.works count := by
  simp only [ToldApart, NextApart, sameDevice_iff, not_forall, exists_prop, ne_eq]

/-- What the loop picks and passes over. -/
theorem netGetProtocol_run {count : Nat} (located : nics.locateHandle = some count) :
    ∃ selection, netGetProtocol nics = .ok selection ∧
      selection.status = (if selection.snp.isSome then .success else efiNotFound) ∧
      (∀ i, selection.snp = some i ↔
        0 < count ∧ Picks (SameDevice nics) nics.works count .first i) ∧
      ∀ i previous, (i, previous) ∈ selection.run.passed ↔
        Passes (SameDevice nics) nics.works count .first i previous := by
  refine ⟨_, by rw [netGetProtocol, located], rfl, ?_, ?_⟩
  · intro i
    rcases Nat.eq_zero_or_pos count with rfl | nonempty
    · exact iff_of_false (by simp [pickLoop]) (by simp)
    · exact ((pickLoop_spec nonempty).chosen i).trans (iff_and_self.mpr fun _ => nonempty)
  · intro i previous
    rcases Nat.eq_zero_or_pos count with rfl | nonempty
    · refine iff_of_false (by simp [pickLoop]) ?_
      rintro ⟨state, -, -, -, -, inside, -⟩
      exact absurd inside (Nat.not_lt_zero i)
    · exact ((pickLoop_spec nonempty).passed i previous).trans
        (and_iff_right (Nat.zero_le i))

/-- **The choice of a network interface.** For any handles, paths and answers of the firmware,
`net_get_protocol` passes over nothing but extensions of the latest handle tried, and gives the
result of the rule, exactly when the half of the path that is compared tells each handle that the
rule tries next apart from the one that failed before it. -/
theorem netGetProtocol_rule_iff (nics : NicFirmware) (count : Nat)
    (located : nics.locateHandle = some count) :
    ∃ selection, netGetProtocol nics = .ok selection ∧
      (SelectsByRule nics count selection ↔ ToldApart nics count) := by
  obtain ⟨selection, run, status, snp, passed⟩ := netGetProtocol_run located
  refine ⟨selection, run, ?_⟩
  rw [toldApart_iff, ← passesOnly_iff sameDevice_of_extends]
  constructor
  · exact fun byRule i previous passes =>
      byRule.passed i previous ((passed i previous).mpr passes)
  · intro only
    have apart := (passesOnly_iff sameDevice_of_extends).mp only
    have chosen : ∀ i, selection.snp = some i ↔ nics.Chosen count i := by
      intro i
      rw [snp, NicFirmware.Chosen, picks_iff_of_nextApart sameDevice_of_extends apart]
    have found : selection.snp.isSome = true ↔ ∃ i, nics.Chosen count i := by
      rw [Option.isSome_iff_exists]
      exact exists_congr chosen
    refine ⟨fun i previous member => only i previous ((passed i previous).mp member), chosen,
      ?_, ?_⟩
    · rw [status, ← found]
      split <;> simp_all [efiNotFound]
    · rw [status, ← found]
      split <;> simp_all [efiNotFound]

/-- The path `ab`. -/
def pathAb : PathText :=
  ⟨fun k => [0x61, 0, 0x62, 0].getD k 0, 2, ⟨by decide, by decide⟩, by decide⟩

/-- The path `cd`. -/
def pathCd : PathText :=
  ⟨fun k => [0x63, 0, 0x64, 0].getD k 0, 2, ⟨by decide, by decide⟩, by decide⟩

/-- The path `ac`. -/
def pathAc : PathText :=
  ⟨fun k => [0x61, 0, 0x63, 0].getD k 0, 2, ⟨by decide, by decide⟩, by decide⟩

/-- Two handles, of which the second has a link. -/
def twoNics (second : PathText) : NicFirmware where
  locateHandle := some 2
  locateHandle_le count located := by
    cases located
    decide
  paths i := if i = 0 then pathAb else second
  answers _ i := ⟨.success, .success, .success, .success, i == 1⟩

theorem netGetProtocol_rule_sample :
    ∃ selection, netGetProtocol (twoNics pathCd) = .ok selection ∧
      SelectsByRule (twoNics pathCd) 2 selection := by
  obtain ⟨selection, run, agrees⟩ := netGetProtocol_rule_iff (twoNics pathCd) 2 rfl
  refine ⟨selection, run, agrees.mpr fun state next _ step => ?_⟩
  have after := step.after
  have inside := step.inside
  have first : state.latest = 0 := by omega
  have second : next.latest = 1 := by omega
  rw [first, second]
  exact ⟨0, by decide, by decide⟩

/-- The paths differ in their second units, which are not compared. The second handle is passed
over, and no interface is found. -/
theorem pathAc_passed :
    netGetProtocol (twoNics pathAc) = .ok ⟨efiNotFound, none, ⟨none, [0], [(1, 0)]⟩⟩ ∧
      ¬ Extends (twoNics pathAc) 1 0 ∧ (twoNics pathAc).Chosen 2 1 ∧
      ¬ SelectsByRule (twoNics pathAc) 2 ⟨efiNotFound, none, ⟨none, [0], [(1, 0)]⟩⟩ := by
  have differ : ¬ Extends (twoNics pathAc) 1 0 := by
    intro extension
    exact absurd (extension 2 (by decide)) (by decide)
  have step : PickStep (Extends (twoNics pathAc)) (twoNics pathAc).works 2 .first ⟨[0], 1⟩ :=
    ⟨rfl, Nat.one_pos, Nat.lt_succ_self 1,
      fun j after before => absurd after (Nat.not_lt.mpr (Nat.le_of_lt_succ before)), differ, rfl⟩
  refine ⟨by decide +kernel, differ, ⟨Nat.two_pos, ⟨[0], 1⟩, .single step, rfl, rfl⟩, ?_⟩
  exact fun byRule => differ (byRule.passed 1 0 (List.mem_singleton_self _))

end VineyardLoader
