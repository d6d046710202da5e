import VineyardLoader.Net.Emissions

/-!
# The transmit buffers contain what is written

The pool of transmit buffers is the only memory that the network code writes frames to. While the
driver gives back only what it took, every such write stays inside the two pages of the pool, and
every frame that is handed to the driver lies inside one buffer, behind its first word, also when
a handler stops in the middle (`netPollLoop_contained`).
-/

set_option autoImplicit false

namespace VineyardLoader

/-- Since an earlier state, nothing outside the pool was written, and what was handed to the driver
lies inside the buffers. -/
structure Contained (base : Nat) (start s : NetState) : Prop where
  outside : ∀ address, address < base ∨ base + ethBuffersPages * 0x1000 ≤ address →
    s.mem address = start.mem address
  inside : ∃ new, s.transmissions = new ++ start.transmissions ∧ ∀ sent ∈ new,
    ∃ index < ethBuffers, sent.address = base + 2048 * index + 8 ∧ 8 + sent.bytes.length ≤ 2048

section Sends

variable {fw : NetFirmware} {base block : Nat} {handedBack : List Nat} {start s : NetState}

theorem store64_outside (memory : Memory) {address place value : Nat}
    (far : place < address ∨ address + 8 ≤ place) :
    memory.store64 address value place = memory place := by
  rw [Memory.store64, Memory.storeLE]
  exact Memory.overwrite_outside _ far

/-- A write inside a buffer. -/
theorem Contained.write {t : NetState} (contained : Contained base start s)
    (member : block ∈ buffers base)
    (same : ∀ address, address < block ∨ block + 2048 ≤ address → t.mem address = s.mem address)
    (quiet : t.transmissions = s.transmissions) : Contained base start t where
  outside address far := by
    obtain ⟨index, bound, rfl⟩ := mem_buffers.mp member
    have few : index < 4 := bound
    have pages : ethBuffersPages * 0x1000 = 0x2000 := rfl
    rw [same address (by omega)]
    exact contained.outside address far
  inside := quiet ▸ contained.inside

theorem Contained.popped (contained : Contained base start s) (member : s.ethBufpool ∈ buffers base) :
    Contained base start s.popped :=
  contained.write member (fun _ far => store64_outside _ (by omega)) rfl

theorem Contained.returned {data : Nat} (contained : Contained base start s)
    (member : data &&& 0xFFFFF800 ∈ buffers base) : Contained base start (s.returned data) :=
  contained.write member (fun _ far => store64_outside _ (by omega)) rfl

/-- A frame in a buffer is handed to the driver. -/
theorem Contained.transmitted (pool : PoolBase base) (contained : Contained base start s)
    (member : block ∈ buffers base) {len : Nat} (fits : 8 + len ≤ 2048) :
    Contained base start (s.transmitted fw (block + 8) len) := by
  obtain ⟨outside, new, transmissions, inside⟩ := contained
  have sent : Contained base start { s with
      transmissions := ⟨block + 8, s.mem.bytes (block + 8) len, fw.transmit s (block + 8) len⟩ ::
        s.transmissions } := by
    refine ⟨outside, ⟨block + 8, s.mem.bytes (block + 8) len, fw.transmit s (block + 8) len⟩ :: new, ?_,
      List.forall_mem_cons.mpr ⟨?_, inside⟩⟩
    · rw [transmissions, List.cons_append]
    · obtain ⟨index, bound, rfl⟩ := mem_buffers.mp member
      exact ⟨index, bound, rfl, by rwa [Memory.bytes_length]⟩
  rw [NetState.transmitted]
  split
  · exact sent
  · exact sent.returned ((pool.mask member (by decide : 8 < 2048)).symm ▸ member)

/-- A buffer is filled behind its first word, and handed to the driver. -/
theorem Contained.filled {t : NetState} (pool : PoolBase base) (contained : Contained base start s)
    (member : block ∈ buffers base)
    (same : ∀ address, address < block + 8 ∨ block + 2048 ≤ address → t.mem address = s.mem address)
    (quiet : t.transmissions = s.transmissions) {len : Nat} (fits : 8 + len ≤ 2048) :
    Contained base start (t.transmitted fw (block + 8) len) := by
  refine Contained.transmitted pool (contained.write member (fun address far => ?_) quiet) member fits
  exact same address (by omega)

/-- The account of the buffers, and that they contain what is written. -/
def Kept (base : Nat) (handedBack : List Nat) (start s : NetState) : Prop :=
  Balanced base handedBack 0 s ∧ Contained base start s

theorem kept_survivesSends (pool : PoolBase base) (fw : NetFirmware) (handedBack : List Nat)
    (start : NetState) : SurvivesSends fw (Kept base handedBack start) where
  wire s t same kept := by
    obtain ⟨⟨phys, handed, list⟩, outside, new, transmissions, inside⟩ := kept
    have mem : t.mem = s.mem := congrArg (·.2.1) same
    have sent : t.transmissions = s.transmissions := congrArg (·.2.2.2.2.2) same
    have flight : t.inFlight handedBack = s.inFlight handedBack := by
      rw [NetState.inFlight, NetState.inFlight, NetState.takenAddresses, NetState.takenAddresses, sent]
    refine ⟨⟨(congrArg (·.2.2.1) same :).trans phys, ?_, ?_⟩, fun address far => ?_, new, ?_, inside⟩
    · rwa [NetState.takenAddresses, sent]
    · rw [flight, mem, show t.ethBufpool = s.ethBufpool from congrArg (·.2.2.2.1) same,
        show t.ethBufpoolAvail = s.ethBufpoolAvail from congrArg (·.2.2.2.2.1) same]
      exact list
    · rw [mem]
      exact outside address far
    · rw [sent, transmissions]
  message s message len own kept := by
    obtain ⟨balanced, contained⟩ := kept
    have short := own.short
    obtain ⟨⟨⟩, t, run⟩ := @netUdp6Send_returns fw message len s.messageAddress 57778 57777 s
    have after := (netUdp6Send_balanced pool message s.messageAddress 57778 57777
      (show len ≤ 1978 by omega) s balanced).1 _ _ run
    rw [run]
    refine ⟨after, ?_⟩
    by_cases empty : s.ethBufpool = 0
    · rw [netUdp6Send_empty empty] at run
      cases run
      exact contained
    have member := (balanced.popped pool empty).lent_mem
    have popped := contained.popped member
    cases found : s.resolve s.messageAddress with
    | none =>
        rw [netUdp6Send_none empty found] at run
        cases run
        exact popped.returned ((pool.mask member (by decide : 8 < 2048)).symm ▸ member)
    | some mac =>
        rw [netUdp6Send_some empty found] at run
        cases run
        have outside : ∀ address, address < s.ethBufpool + 8 ∨ s.ethBufpool + 2048 ≤ address →
            s.popped.withUdp (s.ethBufpool + 8) mac s.messageAddress message len 57778 57777 address =
              s.popped.mem address :=
          fun _ far => s.popped.withUdp_outside mac s.messageAddress message 57778 57777 (by omega)
        refine Contained.filled pool popped member ?_ ?_ ?_
        · exact outside
        · rfl
        · omega
  icmp s data source length dst reads own kept := by
    obtain ⟨balanced, contained⟩ := kept
    by_cases empty : s.ethBufpool = 0
    · rw [netIcmp6Send_empty empty]
      exact ⟨balanced, contained⟩
    have lent := balanced.popped pool empty
    have member := lent.lent_mem
    have popped := contained.popped member
    have mask := pool.mask member (by decide : 8 < 2048)
    by_cases long : 1460 < length
    · rw [netIcmp6Send_long empty data long]
      exact ⟨lent.returned pool mask, popped.returned (mask.symm ▸ member)⟩
    have short := Nat.not_lt.mp long
    cases found : s.resolve dst with
    | none =>
        rw [netIcmp6Send_none empty found data short]
        exact ⟨lent.returned pool mask, popped.returned (mask.symm ▸ member)⟩
    | some mac =>
        obtain ⟨noted, run⟩ := @netIcmp6Send_some fw s dst mac empty found data source reads length short
        have outside : ∀ address, address < s.ethBufpool + 8 ∨ s.ethBufpool + 2048 ≤ address →
            s.popped.withIcmp (s.ethBufpool + 8) mac dst source length address =
              s.popped.mem address :=
          fun _ far => s.popped.withIcmp_outside mac dst source (by omega)
        have filled := lent.filled pool outside
        rw [run]
        constructor
        · refine Balanced.transmitted pool ?_ _
          exact ⟨filled.phys, filled.handed, filled.list⟩
        · refine Contained.filled pool popped member ?_ ?_ ?_
          · exact outside
          · rfl
          · omega

end Sends

/-! ## The loop -/

section Loop

variable {base : Nat} {turns : List PollFirmware} {s : PollState}

theorem kept_survivesTurns (pool : PoolBase base) {fw : PollFirmware} (honest : fw.Honest)
    (start : NetState) : SurvivesTurns fw fun s => Kept base s.handedBack start s.net where
  sends s := kept_survivesSends pool fw.net s.handedBack start
  advertised _ kept := kept
  takeBack s txBuf answer kept := by
    obtain ⟨balanced, contained⟩ := kept
    obtain ⟨⟨⟩, t, run⟩ := takeBack_returns txBuf s
    have after := takeBack_balanced pool balanced (honest s txBuf answer) run
    rw [run]
    refine ⟨after, ?_⟩
    rw [takeBack, bind_of_ok (get_run _)] at run
    split at run
    · rename_i nonzero
      split at run
      · rename_i inside
        have member : txBuf ∈ s.net.inFlight s.handedBack := by
          rcases honest s txBuf answer with zero | before | behind | member
          · exact absurd zero nonzero
          · exact absurd inside.1 (Nat.not_le.mpr before)
          · exact absurd inside.2 (Nat.not_lt.mpr behind)
          · exact member
        have lent := (balanced.handBack member).lent_mem
        have positive := pool.blockSet.nonzero _ lent
        have masked := pool.mask lent (by decide : 8 < 2048)
        rw [show txBuf - 8 + 8 = txBuf by omega] at masked
        cases run
        exact contained.returned (masked.symm ▸ lent)
      · cases run
        exact contained
    · cases run
      exact contained

/-- **The pool contains what is written.** From any state of the loop, nothing outside the pool is
written, and every frame is handed over inside a buffer of the pool. The pool lies below 4 GiB, as
its mask has 32 bits (`PoolBase`), and the driver gives back only what it took (`Honest`). -/
theorem netPollLoop_contained (pool : PoolBase base) (polled : Polled base s)
    (honest : ∀ fw ∈ turns, fw.Honest) :
    (∀ address, address < base ∨ base + 0x2000 ≤ address →
        (finalState (netPollLoop turns s)).net.mem address = s.net.mem address) ∧
      ∃ new, (finalState (netPollLoop turns s)).net.transmissions = new ++ s.net.transmissions ∧
        ∀ sent ∈ new, ∃ index < ethBuffers,
          sent.address = base + 2048 * index + 8 ∧ 8 + sent.bytes.length ≤ 2048 := by
  have survives : ∀ fw ∈ turns, SurvivesTurns fw fun u => Kept base u.handedBack s.net u.net :=
    fun fw member => kept_survivesTurns pool (honest fw member) s.net
  have start : Contained base s.net s.net := ⟨fun _ _ => rfl, [], rfl, nofun⟩
  obtain ⟨-, outside, inside⟩ := preserves_self_iff.mp (netPollLoop_preserves survives) s
    ⟨polled.balanced pool, start⟩
  exact ⟨outside, inside⟩

theorem sampleTurns_honest : ∀ fw ∈ sampleTurns, fw.Honest := by
  have turn : ∀ frame size, (sampleTurn frame size).Honest := fun _ _ => samplePollFirmware_honest
  simp only [sampleTurns, List.forall_mem_cons, List.not_mem_nil, false_imp_iff, implies_true,
    and_true]
  exact ⟨samplePollFirmware_honest, turn _ _, turn _ _, turn _ _, turn _ _, turn _ _, turn _ _,
    turn _ _⟩

theorem netPollLoop_contained_sample :
    ∃ s : PollState, Polled 0x200000 s ∧
      (finalState (netPollLoop sampleTurns s)).net.mem 0x202000 = s.net.mem 0x202000 := by
  have init := ok_of_returned
    (rfl : returned (netBufpoolInit (some 0x200000) samplePollStart.net) = true)
  have start : Polled 0x200000 _ := Polled.init rfl rfl rfl rfl init
  refine ⟨_, start, ?_⟩
  exact (netPollLoop_contained ⟨by decide, by decide, by decide⟩ start sampleTurns_honest).1 0x202000
    (.inr (by decide))

end Loop

end VineyardLoader
