import VineyardLoader.Foundation.Scans
import VineyardLoader.Loader.HandOff

/-!
# The choice of a graphics mode

`framebuffer_setup` keeps a widest and highest resolution as a pair and replaces both when a mode
exceeds one of them, so it scans the modes in the product order of resolutions. Modes that are
not comparable displace one another, and the selection zero also stands for none.

The scan ends on the first mode that no later mode exceeds in width or height
(`modeLoop_settles`). The active mode is then not dominated exactly when no mode before that one
dominates it, or, where it is not set, when the mode that was active already is not dominated
(`framebufferSetup_undominated_iff`).
-/

set_option autoImplicit false

namespace VineyardLoader

variable {fw : Firmware} {platform : Platform} {gop : Gop} {resolution : Nat → Nat × Nat}
  {machine : Machine}

/-- The graphics output reports these resolutions, as width and height. -/
def Gop.Reports (gop : Gop) (resolution : Nat → Nat × Nat) : Prop :=
  ∀ i, i < gop.maxMode → gop.queryMode i = some (resolution i)

/-- The first resolution is at least as wide and as high as the second, and wider or higher. -/
def Dominates (first second : Nat × Nat) : Prop :=
  second.1 ≤ first.1 ∧ second.2 ≤ first.2 ∧ (second.1 < first.1 ∨ second.2 < first.2)

instance (first second : Nat × Nat) : Decidable (Dominates first second) :=
  inferInstanceAs (Decidable (_ ∧ _))

/-- To dominate is to be greater in the product order. -/
theorem dominates_iff {first second : Nat × Nat} : Dominates first second ↔ second < first := by
  have order : second < first ↔ second ≤ first ∧ ¬ first ≤ second := lt_iff_le_not_ge
  rw [order, Dominates, Prod.le_def, Prod.le_def]
  omega

/-- No mode of the output dominates this one. -/
def Undominated (gop : Gop) (resolution : Nat → Nat × Nat) (mode : Nat) : Prop :=
  ∀ i, i < gop.maxMode → ¬ Dominates (resolution i) (resolution mode)

/-! ## The scan -/

/-- A pool allocation returns, and leaves the mode alone. -/
theorem callAllocatePool_mode (size : Nat) :
    ∃ answer middle, callAllocatePool fw size machine = .ok answer middle ∧
      middle.mode = machine.mode := by
  rw [callAllocatePool, bind_of_ok (get_run _)]
  cases fw.allocatePool machine size with
  | none => exact ⟨_, _, rfl, rfl⟩
  | some block => exact ⟨_, _, rfl, rfl⟩

/-- The loop over the modes is a scan in the product order. -/
theorem modeLoop_scan (reports : gop.Reports resolution) (other : isOvmf platform = false)
    (remaining : Nat) :
    ∀ {i maxW maxH selection : Nat} {machine : Machine}, i + remaining = gop.maxMode →
      ∃ final, modeLoop fw platform gop remaining i maxW maxH selection machine =
          .ok (some (scanKeep resolution remaining i (maxW, maxH) selection)) final ∧
        final.mode = machine.mode := by
  induction remaining with
  | zero =>
      intro i maxW maxH selection machine total
      exact ⟨machine, rfl, rfl⟩
  | succ remaining ih =>
      intro i maxW maxH selection machine total
      obtain ⟨answer, middle, allocates, kept⟩ := @callAllocatePool_mode fw machine 8
      have found := reports i (by omega)
      cases size : resolution i with
      | mk width h =>
        rw [size] at found
        rw [modeLoop, bind_of_ok allocates, touchMap, bind_of_ok (modify_run _ _), found, orExit,
          bind_of_ok (pure_run _ _), other, scanKeep, size]
        dsimp only
        by_cases below : (width, h) ≤ (maxW, maxH)
        · have within : ¬ (width > maxW ∨ h > maxH) := by
            rw [Prod.le_def] at below
            omega
          rw [if_neg (by simp), if_neg within, if_pos below]
          obtain ⟨final, run, same⟩ := @ih (i + 1) maxW maxH selection
            { middle with memoryMap := fw.mapAfter middle } (by omega)
          exact ⟨final, run, same.trans kept⟩
        · have exceeds : width > maxW ∨ h > maxH := by
            rw [Prod.le_def] at below
            omega
          rw [if_neg (by simp), if_pos exceeds, if_neg below]
          obtain ⟨final, run, same⟩ := @ih (i + 1) width h i
            { middle with memoryMap := fw.mapAfter middle } (by omega)
          exact ⟨final, run, same.trans kept⟩

/-- **The loop selects the first mode that no later one exceeds.** -/
theorem modeLoop_settles (reports : gop.Reports resolution) (other : isOvmf platform = false)
    (nonempty : 0 < gop.maxMode) :
    ∃ s final, Settles resolution gop.maxMode s ∧
      modeLoop fw platform gop gop.maxMode 0 0 0 0 machine = .ok (some s) final ∧
      final.mode = machine.mode := by
  obtain ⟨final, run, same⟩ := @modeLoop_scan fw platform gop resolution reports other
    gop.maxMode 0 0 0 0 machine (Nat.zero_add _)
  obtain ⟨count, total⟩ := Nat.exists_eq_succ_of_ne_zero (Nat.ne_of_gt nonempty)
  refine ⟨_, final, ?_, run, same⟩
  rw [total]
  exact settles_scanKeep_bot resolution count

/-- The mode that is active after the setup. -/
theorem framebufferSetup_run (reports : gop.Reports resolution) (other : isOvmf platform = false)
    (nonempty : 0 < gop.maxMode) :
    ∃ s answer final, Settles resolution gop.maxMode s ∧
      framebufferSetup fw platform gop machine = .ok answer final ∧
      final.mode = if s ≠ 0 ∧ gop.setMode s = true then s else machine.mode := by
  obtain ⟨s, middle, settles, run, same⟩ :=
    @modeLoop_settles fw platform gop resolution machine reports other nonempty
  rw [framebufferSetup, bind_of_ok run, other]
  by_cases zero : s = 0
  · subst zero
    exact ⟨0, false, middle, settles, rfl, same⟩
  · refine ⟨s, true, { middle with mode := if gop.setMode s then s else middle.mode }, settles,
      ?_, ?_⟩
    · dsimp only
      rw [if_pos ⟨rfl, zero⟩]
      rfl
    · rw [same]
      by_cases sets : gop.setMode s = true
      · rw [if_pos sets, if_pos ⟨zero, sets⟩]
      · rw [if_neg sets, if_neg fun both => sets both.2]

/-! ## The mode after the setup -/

/-- The modes, the answer of `SetMode` and the active mode for which the choice is right. Where the
first mode that no later one exceeds is not the first of all and can be set, no mode before it
dominates it; otherwise the active mode is not dominated. -/
def ModesAgree (gop : Gop) (resolution : Nat → Nat × Nat) (active : Nat) : Prop :=
  ∃ s, Settles resolution gop.maxMode s ∧
    if s ≠ 0 ∧ gop.setMode s = true then ∀ i, i < s → ¬ Dominates (resolution i) (resolution s)
    else Undominated gop resolution active

/-- A settled mode is undominated by the modes before it. -/
theorem Settles.undominated_iff {s : Nat} (settles : Settles resolution gop.maxMode s) :
    Undominated gop resolution s ↔ ∀ i, i < s → ¬ Dominates (resolution i) (resolution s) := by
  simp only [dominates_iff, ← settles.maximal_iff, Undominated]
  constructor
  · intro undominated
    refine ⟨⟨s, settles.inside, rfl⟩, ?_⟩
    rintro _ ⟨i, inside, rfl⟩ above
    by_contra less
    exact undominated i inside (lt_of_le_not_ge above less)
  · intro maximal i inside less
    exact less.not_ge (maximal.le_of_ge ⟨i, inside, rfl⟩ less.le)

/-- **The choice of a graphics mode.** On firmware other than OVMF, for modes of any resolutions
in any order, the setup returns, and the mode that is active afterwards is not dominated exactly
for the modes of `ModesAgree`. -/
theorem framebufferSetup_undominated_iff (fw : Firmware) (platform : Platform) (gop : Gop)
    (resolution : Nat → Nat × Nat) (machine : Machine) (reports : gop.Reports resolution)
    (other : isOvmf platform = false) (nonempty : 0 < gop.maxMode) :
    ∃ answer final, framebufferSetup fw platform gop machine = .ok answer final ∧
      (Undominated gop resolution final.mode ↔ ModesAgree gop resolution machine.mode) := by
  obtain ⟨s, answer, final, settles, run, mode⟩ :=
    @framebufferSetup_run fw platform gop resolution machine reports other nonempty
  refine ⟨answer, final, run, ?_⟩
  have agree : ModesAgree gop resolution machine.mode ↔
      if s ≠ 0 ∧ gop.setMode s = true then ∀ i, i < s → ¬ Dominates (resolution i) (resolution s)
      else Undominated gop resolution machine.mode := by
    constructor
    · rintro ⟨found, also, agrees⟩
      rwa [settles.unique also]
    · exact fun agrees => ⟨s, settles, agrees⟩
  rw [agree, mode]
  split
  · exact settles.undominated_iff
  · exact Iff.rfl

/-- An output with a list of modes, each of which can be set. -/
def gopOfModes (modes : List (Nat × Nat)) : Gop where
  maxMode := modes.length
  queryMode i := modes[i]?
  setMode _ := true
  mode _ := ⟨0, 0, 0, 0⟩

theorem gopOfModes_reports (modes : List (Nat × Nat)) :
    (gopOfModes modes).Reports fun i => modes.getD i (0, 0) := by
  intro i inside
  exact (List.getElem?_eq_getElem inside).trans
    (congrArg some (List.getD_eq_getElem modes (0, 0) inside).symm)

theorem framebufferSetup_undominated_sample :
    ∃ answer final, framebufferSetup sampleFirmware samplePlatform
        (gopOfModes [(640, 480), (1024, 768)]) freshMachine = .ok answer final ∧
      Undominated (gopOfModes [(640, 480), (1024, 768)])
        (fun i => [(640, 480), (1024, 768)].getD i (0, 0)) final.mode := by
  obtain ⟨answer, final, run, agrees⟩ := framebufferSetup_undominated_iff sampleFirmware
    samplePlatform (gopOfModes [(640, 480), (1024, 768)])
    (fun i => [(640, 480), (1024, 768)].getD i (0, 0)) freshMachine (gopOfModes_reports _)
    (by decide +kernel) (by decide)
  refine ⟨answer, final, run, agrees.mpr ⟨1, ⟨by decide, ?_, ?_⟩, ?_⟩⟩
  · intro j after inside
    exact absurd inside (Nat.not_lt.mpr after)
  · intro i before
    obtain rfl : i = 0 := by omega
    exact ⟨1, by decide, by decide, by decide⟩
  · rw [if_pos ⟨by decide, rfl⟩]
    intro i before
    obtain rfl : i = 0 := by omega
    decide

/-- A machine in which the second mode is active. -/
def secondModeMachine : Machine := { freshMachine with mode := 1 }

/-- The widest and highest mode comes first, so nothing is set, and the mode that was active is
left, which it dominates. -/
theorem firstMode_not_set :
    ∃ answer final, framebufferSetup sampleFirmware samplePlatform
        (gopOfModes [(1024, 768), (640, 480)]) secondModeMachine = .ok answer final ∧
      final.mode = 1 ∧ Dominates (1024, 768) (640, 480) ∧
      ¬ Undominated (gopOfModes [(1024, 768), (640, 480)])
        (fun i => [(1024, 768), (640, 480)].getD i (0, 0)) final.mode := by
  have runs : returned (framebufferSetup sampleFirmware samplePlatform
      (gopOfModes [(1024, 768), (640, 480)]) secondModeMachine) = true := by
    decide +kernel
  have mode : (finalState (framebufferSetup sampleFirmware samplePlatform
      (gopOfModes [(1024, 768), (640, 480)]) secondModeMachine)).mode = 1 := by
    decide +kernel
  obtain ⟨answer, final, run⟩ := exists_ok_of_returned runs
  rw [run] at mode
  have stays : final.mode = 1 := mode
  refine ⟨answer, final, run, stays, by decide, fun undominated => ?_⟩
  have first := undominated 0 (by decide)
  rw [stays] at first
  exact first (by decide)

end VineyardLoader
