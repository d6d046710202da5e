import VineyardLoader.Foundation.Bits
import VineyardLoader.Foundation.FreeLists
import VineyardLoader.Net.Frames
import VineyardLoader.Net.Invariants
import VineyardLoader.Net.Poll
import VineyardLoader.Net.Replies

/-!
# The transmit buffers

A transmit buffer is in the free list, or with the driver. A send takes a buffer out of the list and
fills it behind its first word. If the frame cannot be set up, or the driver does not take it, the
buffer is put back at once, and otherwise when the driver gives it back. So no buffer is ever lost
or in the list twice (`bufpool_conserved`), as long as the driver gives back what it took.
-/

set_option autoImplicit false

namespace VineyardLoader

/-- The pool has pages of its own below the limit of `unsigned long`. -/
structure PoolBase (base : Nat) : Prop where
  nonzero : base ≠ 0
  aligned : base % 4096 = 0
  below : base + 0x2000 ≤ 2 ^ 32

/-- The transmit buffers. -/
def buffers (base : Nat) : Multiset Nat := ((List.range ethBuffers).map fun index => base + 2048 * index)

theorem mem_buffers {base block : Nat} :
    block ∈ buffers base ↔ ∃ index < ethBuffers, block = base + 2048 * index := by
  simp only [buffers, Multiset.mem_coe, List.mem_map, List.mem_range]
  exact exists_congr fun index => and_congr_right fun _ => eq_comm

/-- The buffers of a pool of addresses of 64 bits do not overlap. -/
theorem buffers_blockSet {base : Nat} (nonzero : base ≠ 0) (fits : base + 0x2000 ≤ 2 ^ 64) :
    BlockSet 2048 (buffers base) where
  nodup := by
    refine Multiset.coe_nodup.mpr (List.nodup_range.map ?_)
    intro first second same
    simpa using same
  apart := by
    intro first firstMember second secondMember different
    obtain ⟨index, -, rfl⟩ := mem_buffers.mp firstMember
    obtain ⟨other, -, rfl⟩ := mem_buffers.mp secondMember
    have : index ≠ other := fun same => different (by rw [same])
    omega
  word := by decide
  nonzero := by
    intro block member
    obtain ⟨index, -, rfl⟩ := mem_buffers.mp member
    omega
  fits := by
    intro block member
    obtain ⟨index, inside, rfl⟩ := mem_buffers.mp member
    have : index < 4 := inside
    omega

theorem PoolBase.blockSet {base : Nat} (pool : PoolBase base) : BlockSet 2048 (buffers base) :=
  buffers_blockSet pool.nonzero (pool.below.trans (by decide))

/-- The mask finds the buffer of a pointer. -/
theorem PoolBase.mask {base block offset : Nat} (pool : PoolBase base) (member : block ∈ buffers base)
    (inside : offset < 2048) : (block + offset) &&& 0xFFFFF800 = block := by
  obtain ⟨index, bound, rfl⟩ := mem_buffers.mp member
  have aligned := pool.aligned
  have below := pool.below
  have : index < 4 := bound
  have block : (base + 2048 * index) % 2 ^ 11 = 0 := by omega
  exact (add_and_fieldMask_iff 21 block inside).mpr (by omega)

/-! ## Buffers with the driver -/

/-- The pointers that the driver took. -/
def NetState.takenAddresses (s : NetState) : List Nat :=
  (s.transmissions.filter Transmission.taken).map Transmission.address

/-- The pointers that the driver took and has not given back. -/
def NetState.inFlight (s : NetState) (handedBack : List Nat) : Multiset Nat :=
  (s.takenAddresses : Multiset Nat) - (handedBack : Multiset Nat)

/-- Every buffer is in the free list, with the driver, or lent to a send that is under way. -/
structure Balanced (base : Nat) (handedBack : List Nat) (lent : Multiset Nat) (s : NetState) :
    Prop where
  phys : s.ethBufferPhys = base
  handed : (handedBack : Multiset Nat) ≤ s.takenAddresses
  list : FreeList s.mem s.ethBufpool s.ethBufpoolAvail (buffers base)
    (lent + (s.inFlight handedBack).map (· - 8))

section Sends

variable {fw : NetFirmware} {base block : Nat} {handedBack : List Nat} {s : NetState}

theorem Balanced.outside_iff {lent : Multiset Nat} :
    Balanced base handedBack lent s.outside ↔ Balanced base handedBack lent s :=
  ⟨fun ⟨phys, handed, list⟩ => ⟨phys, handed, list⟩, fun ⟨phys, handed, list⟩ => ⟨phys, handed, list⟩⟩

/-- There are at most as many free buffers as buffers. -/
theorem Balanced.avail_le {lent : Multiset Nat} (balanced : Balanced base handedBack lent s) :
    s.ethBufpoolAvail ≤ 4 := by
  have count := balanced.list.count_add_card
  have all : Multiset.card (buffers base) = 4 := rfl
  omega

/-- A buffer that is lent is in the pool. -/
theorem Balanced.lent_mem (balanced : Balanced base handedBack {block} s) : block ∈ buffers base := by
  apply Multiset.mem_of_le balanced.list.out_le
  rw [Multiset.singleton_add]
  exact Multiset.mem_cons_self ..

/-- A buffer that is lent goes to the driver. -/
theorem Balanced.taken (balanced : Balanced base handedBack {block} s) (bytes : List UInt8) :
    Balanced base handedBack 0
      { s with transmissions := ⟨block + 8, bytes, true⟩ :: s.transmissions } := by
  have flight : NetState.inFlight
      { s with transmissions := ⟨block + 8, bytes, true⟩ :: s.transmissions } handedBack =
        (block + 8) ::ₘ s.inFlight handedBack := Multiset.cons_sub_of_le _ balanced.handed
  refine ⟨balanced.phys, balanced.handed.trans (Multiset.le_cons_self _ _), ?_⟩
  rw [flight, Multiset.zero_add, Multiset.map_cons, Nat.add_sub_cancel, ← Multiset.singleton_add]
  exact balanced.list

variable (pool : PoolBase base)

include pool

/-- The first free buffer is lent. -/
theorem Balanced.popped (balanced : Balanced base handedBack 0 s) (free : s.ethBufpool ≠ 0) :
    Balanced base handedBack {s.ethBufpool} s.popped := by
  have bound := balanced.avail_le
  have list := balanced.list
  rw [Multiset.zero_add] at list
  obtain ⟨positive, list⟩ := list.pop pool.blockSet free
  refine ⟨balanced.phys, balanced.handed, ?_⟩
  have count : s.popped.ethBufpoolAvail = s.ethBufpoolAvail - 1 := by
    show (s.ethBufpoolAvail + 2 ^ 32 - 1) % 2 ^ 32 = s.ethBufpoolAvail - 1
    omega
  rw [count, Multiset.singleton_add]
  exact list

/-- A buffer that is lent may be filled. -/
theorem Balanced.filled {mem : Memory} (balanced : Balanced base handedBack {block} s)
    (same : ∀ address, address < block + 8 ∨ block + 2048 ≤ address → mem address = s.mem address) :
    Balanced base handedBack {block} { s with mem := mem } := by
  have list := balanced.list
  rw [Multiset.singleton_add] at list
  refine ⟨balanced.phys, balanced.handed, ?_⟩
  rw [Multiset.singleton_add]
  exact list.write pool.blockSet same

/-- A buffer that is lent is put back. -/
theorem Balanced.returned {lent : Multiset Nat} (balanced : Balanced base handedBack (block ::ₘ lent) s)
    {data : Nat} (mask : data &&& 0xFFFFF800 = block) :
    Balanced base handedBack lent (s.returned data) := by
  have bound := balanced.avail_le
  have list := balanced.list
  rw [Multiset.cons_add] at list
  have pushed := list.push pool.blockSet
  have count : (s.returned data).ethBufpoolAvail = s.ethBufpoolAvail + 1 := by
    show (s.ethBufpoolAvail + 1) % 2 ^ 32 = s.ethBufpoolAvail + 1
    omega
  have mem : (s.returned data).mem = s.mem.store64 block s.ethBufpool := by
    rw [← mask]
    rfl
  refine ⟨balanced.phys, balanced.handed, ?_⟩
  rw [count, mem, show (s.returned data).ethBufpool = block from mask]
  exact pushed

/-- A buffer that is lent goes to the driver, or back into the list. -/
theorem Balanced.transmitted (balanced : Balanced base handedBack {block} s) (len : Nat) :
    Balanced base handedBack 0 (s.transmitted fw (block + 8) len) := by
  rw [NetState.transmitted]
  cases fw.transmit s (block + 8) len with
  | true => exact balanced.taken _
  | false =>
      refine Balanced.returned pool ?_ (pool.mask balanced.lent_mem (by decide))
      exact ⟨balanced.phys, balanced.handed, balanced.list⟩

/-! ## Whole sends -/

/-- A datagram that fits a buffer keeps the account. -/
theorem netUdp6Send_balanced (data : Memory) {len : Nat} (addr : Memory) (destPort sourcePort : Nat)
    (short : len ≤ 1978) :
    Preserves (Balanced base handedBack 0) (fun _ => True)
      (netUdp6Send fw data len addr destPort sourcePort) := by
  refine Preserves.of_ok fun s balanced => ?_
  by_cases empty : s.ethBufpool = 0
  · exact ⟨_, _, netUdp6Send_empty empty data len destPort sourcePort, balanced⟩
  have popped := balanced.popped pool empty
  cases found : s.resolve addr with
  | none =>
      refine ⟨_, _, netUdp6Send_none empty found data len destPort sourcePort, ?_⟩
      exact popped.returned pool (pool.mask popped.lent_mem (by decide))
  | some mac =>
      refine ⟨_, _, netUdp6Send_some empty found data len destPort sourcePort, ?_⟩
      refine Balanced.transmitted pool (popped.filled pool fun address outside => ?_) _
      exact s.popped.withUdp_outside mac addr data destPort sourcePort (by omega)

/-- So does an ICMPv6 message, of any length. -/
theorem netIcmp6Send_balanced {data : Net Memory} (reads : ∀ s, ∃ source, Reads data source s)
    (length : Nat) (addr : Memory) :
    Preserves (Balanced base handedBack 0) (fun _ => True) (netIcmp6Send fw data length addr) := by
  refine Preserves.of_ok fun s balanced => ?_
  by_cases empty : s.ethBufpool = 0
  · exact ⟨_, _, netIcmp6Send_empty empty data length, balanced⟩
  have popped := balanced.popped pool empty
  have back := popped.returned pool (pool.mask popped.lent_mem (by decide : 8 < 2048))
  by_cases long : 1460 < length
  · exact ⟨_, _, netIcmp6Send_long empty data long, back⟩
  have short := Nat.not_lt.mp long
  cases found : s.resolve addr with
  | none => exact ⟨_, _, netIcmp6Send_none empty found data short, back⟩
  | some mac =>
      obtain ⟨source, reading⟩ := reads s
      obtain ⟨noted, run⟩ :=
        @netIcmp6Send_some fw s addr mac empty found data source reading length short
      refine ⟨_, _, run, Balanced.transmitted pool ?_ _⟩
      have filled := popped.filled pool fun address outside =>
        @NetState.withIcmp_outside s.popped (s.ethBufpool + 8) address mac addr source length
          (by omega)
      exact ⟨filled.phys, filled.handed, filled.list⟩

omit pool in
/-- What only moves a transfer on keeps the account. -/
theorem balanced_of_outside {α : Type} {program : Net α} (keeps : Keeps NetState.outside program) :
    Preserves (Balanced base handedBack 0) (fun _ => True) program := by
  intro s balanced
  refine ⟨fun value final run => Balanced.outside_iff.mp ?_, fun _ _ _ => trivial⟩
  rw [keeps.ok run]
  exact Balanced.outside_iff.mpr balanced

theorem netbootCmdSend_balanced (cmd : Nat) (data : Option Memory) {dataLen : Nat}
    (short : dataLen ≤ 1962) :
    Preserves (Balanced base handedBack 0) (fun _ => True)
      (netbootCmdSend fw cmd data dataLen) := by
  intro s balanced
  rcases @netbootCmdSend_cases fw cmd data dataLen s with refused | ⟨message, msg, sends⟩
  · rw [refused]
    exact ⟨nofun, fun _ _ _ => trivial⟩
  · rw [sends]
    refine Preserves.bind ?_ (fun _ => balanced_of_outside (netFree_keeps msg)) s balanced
    exact netUdp6Send_balanced pool message _ _ _ (by omega)

theorem netbootCmdReceive_balanced (data : Nat) :
    Preserves (Balanced base handedBack 0) (fun _ => True) (netbootCmdReceive fw data) := by
  have same : (fun s : NetState => Balanced base handedBack 0 s.outside) =
      Balanced base handedBack 0 := funext fun s => propext Balanced.outside_iff
  have sends : ∀ ack, Preserves (Balanced base handedBack 0) (fun _ => True) (sendAck fw ack) := by
    intro ack
    refine Preserves.bind (Preserves.modify fun s balanced => ?_) fun _ => ?_
    · exact ⟨balanced.phys, balanced.handed, balanced.list⟩
    · exact netbootCmdSend_balanced pool _ _ (by decide)
  rw [← same] at sends ⊢
  exact netbootCmdReceive_preserves (fun _ _ => trivial) sends
    (writeFile_preserves (fun _ _ => trivial) fun s _ _ balanced =>
      ⟨balanced.phys, balanced.handed, balanced.list⟩)

/-! ## Received frames -/

theorem netIcmp6Receive_balanced (ip data len : Nat) :
    Preserves (Balanced base handedBack 0) (fun _ => True) (netIcmp6Receive fw ip data len) := by
  have reading : ∀ s, ∃ source, Reads (frameBytes data len) source s :=
    fun s => ⟨_, reads_frameBytes data len s⟩
  have solicitation : Preserves (Balanced base handedBack 0) (fun _ => True)
      (neighborSolicitation fw ip data len) := by
    refine Preserves.ite (fun _ => ?_) fun _ => Preserves.pure _
    refine (balanced_of_outside (frameLE_outside _ _)).bind fun code => ?_
    refine Preserves.ite (fun _ => ?_) fun _ => Preserves.pure _
    refine (balanced_of_outside (frameLE_outside _ _)).bind fun hopLimit => ?_
    refine Preserves.ite (fun _ => ?_) fun _ => Preserves.pure _
    refine (balanced_of_outside (frameBytes_outside _ _)).bind fun target => ?_
    refine Preserves.get.bind fun s => Preserves.ite (fun _ => ?_) fun _ => Preserves.pure _
    refine Preserves.get.bind fun t => (balanced_of_outside (frameBytes_outside _ _)).bind fun src => ?_
    exact netIcmp6Send_balanced pool (fun s => ⟨_, fun u _ => ⟨u.frameReads, rfl⟩⟩) 32 src
  refine (balanced_of_outside (frameLE_outside _ _)).bind fun type => ?_
  refine Preserves.ite (fun _ => ?_) fun _ => ?_
  · refine Preserves.bind (Preserves.modify fun s balanced => ?_) fun _ => ?_
    · exact ⟨balanced.phys, balanced.handed, balanced.list⟩
    · refine (balanced_of_outside (frameBytes_outside _ _)).bind fun src => ?_
      exact netIcmp6Send_balanced pool reading len src
  · exact Preserves.ite (fun _ => solicitation) fun _ => Preserves.pure _

theorem netPacketReceive_balanced (len : Nat) :
    Preserves (Balanced base handedBack 0) (fun _ => True) (netPacketReceive fw len) := by
  refine (balanced_of_outside (frameBytes_outside _ _)).bind fun mac => ?_
  refine (balanced_of_outside (frameBytes_outside _ _)).bind fun ip6 => ?_
  refine Preserves.bind (Preserves.modify fun s balanced => ?_) fun _ => ?_
  · exact ⟨balanced.phys, balanced.handed, balanced.list⟩
  refine (balanced_of_outside (frameLE_outside _ _)).bind fun nextHeader => ?_
  refine Preserves.ite (fun _ => ?_) fun _ => Preserves.ite (fun _ => ?_) fun _ => Preserves.pure _
  · refine (balanced_of_outside (frameLE_outside _ _)).bind fun port => ?_
    exact Preserves.ite (fun _ => netbootCmdReceive_balanced pool _) fun _ => Preserves.pure _
  · exact netIcmp6Receive_balanced pool _ _ _

/-- **Every received frame keeps the account.** -/
theorem netEthReceive_balanced (len : Nat) :
    Preserves (Balanced base handedBack 0) (fun _ => True) (netEthReceive fw len) := by
  refine Preserves.ite (fun _ => Preserves.pure _) fun _ => ?_
  refine (balanced_of_outside (frameLE_outside _ _)).bind fun protocol => ?_
  refine Preserves.ite (fun _ => Preserves.pure _) fun _ => ?_
  refine (balanced_of_outside (frameLE_outside _ _)).bind fun version => ?_
  refine Preserves.ite (fun _ => Preserves.pure _) fun _ => ?_
  refine (balanced_of_outside (frameLE_outside _ _)).bind fun length => ?_
  refine Preserves.ite (fun _ => Preserves.pure _) fun _ => ?_
  refine (balanced_of_outside (frameBytes_outside _ _)).bind fun dst => ?_
  refine Preserves.get.bind fun s => Preserves.ite (fun _ => Preserves.pure _) fun _ => ?_
  exact (netPacketReceive_balanced pool _).bind fun _ => Preserves.pure _

end Sends

/-! ## The polling loop -/

/-- The driver gives back only what it took and has not given back. What it reports otherwise is
nothing, or lies outside the pool. -/
def PollFirmware.Honest (fw : PollFirmware) : Prop :=
  ∀ s txBuf, fw.getStatus s = some txBuf →
    txBuf = 0 ∨ txBuf < s.net.ethBufferPhys ∨
      s.net.ethBufferPhys + ethBuffersPages * 0x1000 ≤ txBuf ∨ txBuf ∈ s.net.inFlight s.handedBack

/-- The states between the turns of the polling loop, from the start with an empty pool. -/
inductive Polled (base : Nat) : PollState → Prop
  | init {s : PollState} {net : NetState} (empty : s.net.ethBufpool = 0)
      (none : s.net.ethBufpoolAvail = 0) (quiet : s.net.transmissions = [])
      (nothing : s.handedBack = []) (run : netBufpoolInit (some base) s.net = .ok () net) :
      Polled base { s with net := net }
  | poll {fw : PollFirmware} {s t : PollState} (polled : Polled base s) (honest : fw.Honest)
      (run : netPoll fw s = .ok () t) : Polled base t

section Loop

variable {base : Nat}

/-- Buffers are put into the list one after the other. -/
theorem forM_return_balanced (pool : PoolBase base) {handedBack : List Nat} {lent : Multiset Nat}
    {blocks : List Nat} {s t : NetState} (balanced : Balanced base handedBack (↑blocks + lent) s)
    (run : blocks.forM netBufpoolReturn s = .ok () t) : Balanced base handedBack lent t := by
  induction blocks generalizing s with
  | nil =>
      cases run
      rwa [Multiset.coe_nil, Multiset.zero_add] at balanced
  | cons block rest ih =>
      rw [← Multiset.cons_coe, Multiset.cons_add] at balanced
      have member : block ∈ buffers base := by
        apply Multiset.mem_of_le balanced.list.out_le
        rw [Multiset.cons_add]
        exact Multiset.mem_cons_self ..
      have mask : block &&& 0xFFFFF800 = block := pool.mask member (by decide : 0 < 2048)
      exact ih (balanced.returned pool mask) run

/-- The account at the start of the loop. -/
theorem netBufpoolInit_balanced (pool : PoolBase base) {s t : NetState} (empty : s.ethBufpool = 0)
    (none : s.ethBufpoolAvail = 0) (quiet : s.transmissions = [])
    (run : netBufpoolInit (some base) s = .ok () t) : Balanced base [] 0 t := by
  rw [netBufpoolInit, bind_of_ok (modify_run _ _), repeatTimes_eq_forM] at run
  refine @forM_return_balanced base pool [] 0
    ((List.range ethBuffers).map fun index => base + 2048 * index)
    { s with ethBufferPhys := base } t ⟨rfl, Multiset.zero_le _, [], empty, none.symm, ?_⟩ ?_
  · have flight : NetState.inFlight { s with ethBufferPhys := base } [] = 0 := by
      simp [NetState.inFlight, NetState.takenAddresses, quiet]
    rw [flight]
    simp [buffers]
  · simpa [List.forM_eq_forM] using run

/-- The account between two calls of the network code. -/
def PollBalanced (base : Nat) (s : PollState) : Prop := Balanced base s.handedBack 0 s.net

/-- A program of the network code that keeps the account keeps it in the loop. -/
theorem liftNet_balanced {α : Type} {program : Net α}
    (preserves : ∀ handedBack, Preserves (Balanced base handedBack 0) (fun _ => True) program) :
    Preserves (PollBalanced base) (fun _ => True)
      (liftNet program) := by
  intro s balanced
  refine ⟨fun value final run => ?_, fun _ _ _ => trivial⟩
  unfold liftNet at run
  cases inner : program s.net with
  | ok result net =>
      rw [inner] at run
      cases run
      exact (preserves s.handedBack s.net balanced).1 value net inner
  | error reason net =>
      rw [inner] at run
      cases run

/-- A pointer comes back from the driver. -/
theorem Balanced.handBack {handedBack : List Nat} {s : NetState} {txBuf : Nat}
    (balanced : Balanced base handedBack 0 s) (member : txBuf ∈ s.inFlight handedBack) :
    Balanced base (txBuf :: handedBack) {txBuf - 8} s := by
  obtain ⟨rest, flight⟩ := Multiset.exists_cons_of_mem member
  have taken : (s.takenAddresses : Multiset Nat) = (txBuf :: handedBack : List Nat) + rest := by
    rw [← Multiset.cons_coe, Multiset.cons_add, ← Multiset.add_cons, ← flight]
    exact (add_tsub_cancel_of_le balanced.handed).symm
  have left : s.inFlight (txBuf :: handedBack) = rest := by
    rw [NetState.inFlight, taken, add_tsub_cancel_left]
  refine ⟨balanced.phys, taken ▸ Multiset.le_add_right _ _, ?_⟩
  have list := balanced.list
  rw [flight, Multiset.zero_add, Multiset.map_cons, ← Multiset.singleton_add] at list
  rw [left]
  exact list

section Turn

variable {fw : PollFirmware} (pool : PoolBase base)

include pool

theorem pollAdvertise_balanced :
    Preserves (PollBalanced base) (fun _ => True)
      (pollAdvertise fw) := by
  have advertise := liftNet_balanced fun handedBack =>
    @netbootCmdSend_balanced fw.net base handedBack pool cmdAdvertise none 0 (by decide)
  have timer : Preserves (PollBalanced base) (fun _ => True)
      (netTimerSet fw) := by
    refine Preserves.get.bind fun s => Preserves.ite (fun _ => Preserves.pure _) fun _ => ?_
    exact Preserves.ite (fun _ => Preserves.pure _) fun _ => Preserves.throw (fun _ _ => trivial) _
  have expired : Preserves (PollBalanced base) (fun _ => True)
      (netTimerExpired fw) :=
    Preserves.get.bind fun s => Preserves.ite (fun _ => Preserves.pure _) fun _ => Preserves.pure _
  refine Preserves.get.bind fun s => Preserves.ite (fun _ => ?_) fun _ => ?_
  · exact advertise.bind fun _ => timer.bind fun _ => Preserves.modify fun _ balanced => balanced
  · refine expired.bind fun _ => Preserves.ite (fun _ => ?_) fun _ => Preserves.pure _
    exact advertise.bind fun _ => timer

/-- What the driver gives back goes into the list. -/
theorem takeBack_balanced {s t : PollState} {txBuf : Nat} (balanced : PollBalanced base s)
    (honest : txBuf = 0 ∨ txBuf < s.net.ethBufferPhys ∨
      s.net.ethBufferPhys + ethBuffersPages * 0x1000 ≤ txBuf ∨ txBuf ∈ s.net.inFlight s.handedBack)
    (run : takeBack txBuf s = .ok () t) : PollBalanced base t := by
  rw [takeBack, bind_of_ok (get_run _)] at run
  split at run
  · rename_i nonzero
    split at run
    · rename_i inside
      have member : txBuf ∈ s.net.inFlight s.handedBack := by
        rcases honest with zero | before | after | member
        · exact absurd zero nonzero
        · exact absurd inside.1 (Nat.not_le.mpr before)
        · exact absurd inside.2 (Nat.not_lt.mpr after)
        · exact member
      have lent := balanced.handBack member
      have positive := pool.blockSet.nonzero _ lent.lent_mem
      have mask : txBuf &&& 0xFFFFF800 = txBuf - 8 := by
        have masked := pool.mask lent.lent_mem (by decide : 8 < 2048)
        rwa [show txBuf - 8 + 8 = txBuf by omega] at masked
      cases run
      exact lent.returned pool mask
    · cases run
      exact balanced
  · cases run
    exact balanced

theorem pollStatus_balanced (honest : fw.Honest) :
    Preserves (PollBalanced base) (fun _ => True) (pollStatus fw) := by
  intro s balanced
  refine ⟨fun value t run => ?_, fun _ _ _ => trivial⟩
  rw [pollStatus, bind_of_ok (get_run _)] at run
  split at run
  · split at run
    · cases run
    · cases answer : fw.getStatus s with
      | none =>
          rw [answer] at run
          cases run
          exact balanced
      | some txBuf =>
          rw [answer] at run
          obtain ⟨⟨⟩, middle, taken, rest⟩ := bind_eq_ok.mp run
          cases rest
          exact takeBack_balanced pool balanced (honest s txBuf answer) taken
  · cases run
    exact balanced

theorem pollReceive_balanced : Preserves (PollBalanced base) (fun _ => True) (pollReceive fw) := by
  refine Preserves.get.bind fun s => Preserves.ite (fun _ => ?_) fun _ => ?_
  · exact Preserves.throw (fun _ _ => trivial) _
  · cases fw.receive s with
    | frame data size =>
        refine Preserves.bind (Preserves.modify fun t balanced => ?_) fun _ => ?_
        · exact ⟨balanced.phys, balanced.handed, balanced.list⟩
        · exact (liftNet_balanced fun _ => netEthReceive_balanced pool size).bind fun _ =>
            Preserves.pure _
    | notReady => exact Preserves.pure _
    | failed => exact Preserves.throw (fun _ _ => trivial) _

theorem netPoll_balanced (honest : fw.Honest) :
    Preserves (PollBalanced base) (fun _ => True)
      (netPoll fw) := by
  refine (pollAdvertise_balanced pool).bind fun _ => (pollStatus_balanced pool honest).bind fun _ => ?_
  exact Preserves.ite (fun _ => pollReceive_balanced pool) fun _ => Preserves.pure _

end Turn

/-- The account holds between all turns of the loop. -/
theorem Polled.balanced (pool : PoolBase base) {s : PollState} (polled : Polled base s) :
    PollBalanced base s := by
  induction polled with
  | init empty none quiet nothing run =>
      rw [PollBalanced, nothing]
      exact netBufpoolInit_balanced pool empty none quiet run
  | poll _ honest run ih => exact (netPoll_balanced pool honest _ ih).1 _ _ run

/-- No buffer is lost, free twice, or free while the driver has it. -/
structure Conserved (base : Nat) (s : PollState) (free : List Nat) : Prop where
  linked : Linked s.net.mem s.net.ethBufpool free
  nodup : free.Nodup
  buffer : ∀ block ∈ free, ∃ index < ethBuffers, block = base + 2048 * index
  avail : s.net.ethBufpoolAvail = free.length
  flightNodup : (s.net.inFlight s.handedBack).Nodup
  flightBuffer : ∀ pointer ∈ s.net.inFlight s.handedBack,
    ∃ index < ethBuffers, pointer = base + 2048 * index + 8
  disjoint : ∀ block ∈ free, block + 8 ∉ s.net.inFlight s.handedBack
  count : s.net.ethBufpoolAvail + Multiset.card (s.net.inFlight s.handedBack) = ethBuffers

/-- **Transmit buffers are conserved.** -/
theorem bufpool_conserved (nonzero : base ≠ 0) (aligned : base % 4096 = 0)
    (below : base + 0x2000 ≤ 2 ^ 32) {s : PollState} (polled : Polled base s) :
    ∃ free, Conserved base s free := by
  have pool : PoolBase base := ⟨nonzero, aligned, below⟩
  obtain ⟨-, -, list⟩ := polled.balanced pool
  have count := list.count_add_card
  rw [Multiset.zero_add] at list count
  obtain ⟨free, linked, avail, account⟩ := list
  have nodup := pool.blockSet.nodup
  rw [← account, Multiset.nodup_add] at nodup
  have place : ∀ pointer ∈ s.net.inFlight s.handedBack,
      ∃ index < ethBuffers, pointer = base + 2048 * index + 8 := by
    intro pointer member
    have inside : pointer - 8 ∈ buffers base := by
      rw [← account]
      exact Multiset.mem_add.mpr (.inr (Multiset.mem_map_of_mem _ member))
    obtain ⟨index, bound, at_⟩ := mem_buffers.mp inside
    exact ⟨index, bound, by omega⟩
  refine ⟨free, linked, Multiset.coe_nodup.mp nodup.1, ?_, avail.symm, nodup.2.1.of_map _, place, ?_, ?_⟩
  · intro block member
    exact mem_buffers.mp (account ▸ Multiset.mem_add.mpr (.inl member))
  · intro block member flying
    apply Multiset.disjoint_left.mp nodup.2.2 member
    exact Multiset.mem_map.mpr ⟨block + 8, flying, Nat.add_sub_cancel ..⟩
  · rwa [Multiset.card_map] at count

end Loop

/-- A driver that takes every frame and gives back what it took last. -/
def samplePollFirmware : PollFirmware where
  net := sampleNetFirmware
  setTimer _ := true
  checkEvent _ := false
  getStatus s := some (((s.net.takenAddresses.diff s.handedBack).head?).getD 0)
  receive _ := .notReady

theorem samplePollFirmware_honest : samplePollFirmware.Honest := by
  intro s txBuf answer
  cases answer
  show _ ∨ _ ∨ _ ∨ _ ∈ s.net.inFlight s.handedBack
  rw [NetState.inFlight, Multiset.coe_sub]
  cases s.net.takenAddresses.diff s.handedBack with
  | nil => exact .inl rfl
  | cons first rest => exact .inr (.inr (.inr (List.mem_cons_self ..)))

/-- Before the pool is made. -/
def samplePollStart : PollState where
  net := { sampleNetState with ethBufpool := 0, ethBufpoolAvail := 0 }
  snp := true
  netAdvertised := false
  netTimer := true
  handedBack := []

/-- After the pool is made. -/
def samplePollReady : PollState :=
  { samplePollStart with
    net := finalState (netBufpoolInit (some 0x200000) samplePollStart.net) }

/-- The first turn advertises. The buffer comes back in it. -/
theorem bufpool_conserved_sample :
    ∃ s free, Conserved 0x200000 s free ∧ s.net.takenAddresses = [0x201808] ∧
      s.handedBack = [0x201808] := by
  have init := ok_of_returned
    (rfl : returned (netBufpoolInit (some 0x200000) samplePollStart.net) = true)
  have start : Polled 0x200000 _ := Polled.init rfl rfl rfl rfl init
  have turn := Polled.poll start samplePollFirmware_honest (ok_of_returned rfl)
  obtain ⟨free, conserved⟩ := bufpool_conserved (by decide) (by decide) (by decide) turn
  exact ⟨_, free, conserved, rfl, rfl⟩

end VineyardLoader
