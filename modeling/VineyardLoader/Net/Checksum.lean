import VineyardLoader.Foundation.OnesComplement
import VineyardLoader.Net.Send

/-!
# The checksum of a packet

`checksum` adds up words as the processor loads them, the low byte first, in an accumulator of 32
bits, and folds the sum to 16 bits. `net_ip6_checksum` calls it twice, for the length and for the
rest, and hands the folded sum on.

The accumulator holds every sum that occurs (`NeverOverflows`), the fold takes at most two turns
(`foldSum_eq_residue`), and folding on the way does not matter. So the result is the residue of
the sum of all words, which is the Internet checksum of the pseudo-header and the packet with its
bytes swapped (`netIp6Checksum_eq`). Stored with the low byte first, the bytes are in the order
of the network.
-/

set_option autoImplicit false

namespace VineyardLoader

theorem htons_lt (d : Nat) : htons d < 2 ^ 16 := swapBytes_lt d

/-! ## Folding -/

/-- One turn of the fold keeps the residue. -/
theorem residue_fold (sum : Nat) : residue (sum % 2 ^ 16 + sum / 2 ^ 16) = residue sum := by
  refine residue_eq (residue_lt _) ?_ ?_
  · rw [residue_mod]
    omega
  · rw [residue_eq_zero]
    omega

theorem foldSum_succ (fuel sum : Nat) :
    foldSum (fuel + 1) sum =
      if sum < 2 ^ 16 then sum else foldSum fuel (sum % 2 ^ 16 + sum / 2 ^ 16) := by
  have low : sum &&& 0xFFFF = sum % 2 ^ 16 := Nat.and_two_pow_sub_one_eq_mod sum 16
  have high : sum >>> 16 = sum / 2 ^ 16 := Nat.shiftRight_eq_div_pow sum 16
  have small : sum / 2 ^ 16 = 0 ↔ sum < 2 ^ 16 := by omega
  rw [foldSum, low, high]
  simp only [small]

theorem foldSum_of_lt {sum : Nat} (small : sum < 2 ^ 16) : ∀ fuel, foldSum fuel sum = sum
  | 0 => rfl
  | fuel + 1 => by rw [foldSum_succ, if_pos small]

/-- **The fold ends after two turns**, with the residue of the sum. -/
theorem foldSum_eq_residue {sum : Nat} (fits : sum < 2 ^ 32) (fuel : Nat) :
    foldSum (fuel + 2) sum = residue sum := by
  have second : ∀ {part : Nat}, part < 2 ^ 17 - 1 → foldSum (fuel + 1) part = residue part := by
    intro part bounded
    rw [foldSum_succ]
    split
    · exact (residue_of_lt ‹_›).symm
    · rw [foldSum_of_lt (by omega), ← residue_fold part, residue_of_lt (by omega)]
  rw [foldSum_succ]
  split
  · exact (residue_of_lt ‹_›).symm
  · rw [second (by omega), residue_fold]

/-! ## Adding up -/

/-- The sum after a range of bytes, without a limit on its size. -/
def plainSum (mem : Memory) (data len sumInit : Nat) : Nat :=
  sumInit + (wordsLE (mem.bytes data len)).sum

theorem plainSum_add (mem : Memory) {data first sumInit : Nat} (even : first % 2 = 0)
    (second : Nat) : plainSum mem data (first + second) sumInit =
      plainSum mem (data + first) second (plainSum mem data first sumInit) := by
  simp only [plainSum]
  rw [mem.bytes_add, wordsLE_append (by simpa using even), List.sum_append, Nat.add_assoc]

theorem plainSum_two (mem : Memory) (data sumInit : Nat) :
    plainSum mem data 2 sumInit = sumInit + mem.loadLE data 2 := by
  rw [plainSum, mem.bytes_two, wordsLE_pair, List.sum_singleton, mem.loadLE_two]

theorem plainSum_one (mem : Memory) (data sumInit : Nat) :
    plainSum mem data 1 sumInit = sumInit + (mem.loadLE data 2 &&& 0xFF) := by
  have byte : mem.loadLE data 2 &&& 0xFF = (mem data).toNat := by
    have bounded := (mem data).toNat_lt
    rw [mem.loadLE_two, show (0xFF : Nat) = 2 ^ 8 - 1 from rfl, Nat.and_two_pow_sub_one_eq_mod]
    omega
  rw [byte, plainSum, show mem.bytes data 1 = [mem data] from rfl, wordsLE_single,
    List.sum_singleton]

theorem plainSum_le (mem : Memory) (data len sumInit : Nat) :
    plainSum mem data len sumInit ≤ sumInit + (len + 1) / 2 * 0xFFFF := by
  have bound := wordsLE_sum_le (mem.bytes data len)
  rw [mem.bytes_length] at bound
  exact Nat.add_le_add_left bound _

/-- While the sum fits, the accumulator holds it. -/
theorem sumWords_eq (mem : Memory) : ∀ (count data sumInit : Nat),
    plainSum mem data (2 * count) sumInit < 2 ^ 32 →
      sumWords mem count data sumInit = plainSum mem data (2 * count) sumInit := by
  intro count
  induction count with
  | zero => intro data sumInit _; rfl
  | succ count ih =>
      intro data sumInit fits
      have step : plainSum mem data (2 * (count + 1)) sumInit =
          plainSum mem (data + 2) (2 * count) (sumInit + mem.loadLE data 2) := by
        rw [Nat.mul_succ, Nat.add_comm (2 * count) 2, plainSum_add mem rfl, plainSum_two]
      rw [step] at fits ⊢
      have here : sumInit + mem.loadLE data 2 < 2 ^ 32 := Nat.lt_of_le_of_lt (Nat.le_add_right _ _) fits
      rw [sumWords, Nat.mod_eq_of_lt here, ih _ _ fits]

/-- The accumulator holds the sum after every word of a range, and after an odd byte at its
end. -/
def NeverOverflows (mem : Memory) (data len sumInit : Nat) : Prop :=
  (∀ count, count ≤ len / 2 →
      sumWords mem count data sumInit = plainSum mem data (2 * count) sumInit ∧
        plainSum mem data (2 * count) sumInit < 2 ^ 32) ∧
    plainSum mem data len sumInit < 2 ^ 32

/-- A range of less than 128 KiB is summed in 32 bits. -/
theorem neverOverflows (mem : Memory) (data : Nat) {len sumInit : Nat} (short : len < 2 ^ 17)
    (small : sumInit < 2 ^ 16) : NeverOverflows mem data len sumInit := by
  have fits : ∀ size, size ≤ len → plainSum mem data size sumInit < 2 ^ 32 := by
    intro size inside
    have bound := plainSum_le mem data size sumInit
    have half : (size + 1) / 2 * 0xFFFF ≤ 2 ^ 16 * 0xFFFF :=
      Nat.mul_le_mul_right _ (by omega)
    omega
  refine ⟨fun count inside => ?_, fits len (Nat.le_refl _)⟩
  have here := fits (2 * count) (by omega)
  exact ⟨sumWords_eq mem count data sumInit here, here⟩

/-- **`checksum` is the residue of the sum of the words.** -/
theorem checksum_eq {mem : Memory} {data len sumInit : Nat}
    (fits : NeverOverflows mem data len sumInit) :
    checksum mem data len sumInit = residue (plainSum mem data len sumInit) := by
  obtain ⟨words, total⟩ := fits
  have loop := (words (len / 2) (Nat.le_refl _)).1
  have sum : (if len % 2 = 0 then sumWords mem (len / 2) data sumInit
      else (sumWords mem (len / 2) data sumInit +
        (mem.loadLE (data + len / 2 * 2) 2 &&& 0xFF)) % 2 ^ 32) = plainSum mem data len sumInit := by
    rw [loop]
    split
    · rw [show 2 * (len / 2) = len by omega]
    · have odd : plainSum mem data len sumInit =
          plainSum mem data (2 * (len / 2)) sumInit +
            (mem.loadLE (data + len / 2 * 2) 2 &&& 0xFF) := by
        rw [← plainSum_one, Nat.mul_comm (len / 2) 2, ← plainSum_add mem (by omega),
          show 2 * (len / 2) + 1 = len by omega]
      rw [← odd, Nat.mod_eq_of_lt total]
  simp only [checksum]
  rw [sum, foldSum_eq_residue total 1]
  exact Nat.mod_eq_of_lt (residue_lt _)

/-! ## The checksum of a packet -/

/-- The pseudo-header that the checksum covers: the two addresses, the length of the packet and
its protocol, with 32 bits for each number. -/
def pseudoHeader (mem : Memory) (ip length type : Nat) : List UInt8 :=
  mem.bytes (ip + 8) 32 ++ bigEndian 4 length ++ bigEndian 4 type

theorem wordsBE_bigEndian_four {value : Nat} (small : value < 2 ^ 16) :
    wordsBE (bigEndian 4 value) = [0, value] := by
  have digit : ∀ place, (UInt8.ofNat (value / 256 ^ place)).toNat = value / 256 ^ place % 256 :=
    fun _ => UInt8.toNat_ofNat'
  simp only [bigEndian, wordsBE, digit, List.cons.injEq, and_true]
  omega

/-- The words of the pseudo-header and the packet add up to the two numbers and the rest. -/
theorem wordsBE_packet_sum (mem : Memory) (ip : Nat) {length type : Nat} (short : length < 2 ^ 16)
    (typed : type < 2 ^ 16) :
    (wordsBE (pseudoHeader mem ip length type ++ mem.bytes (ip + 40) length)).sum =
      (type :: length :: wordsBE (mem.bytes (ip + 8) (32 + length))).sum := by
  have four : ∀ value, (bigEndian 4 value).length % 2 = 0 := fun _ => by simp
  have addresses : (mem.bytes (ip + 8) 32).length % 2 = 0 := by simp
  rw [mem.bytes_add, pseudoHeader, List.append_assoc, List.append_assoc,
    wordsBE_append addresses, wordsBE_append (four length), wordsBE_append (four type),
    wordsBE_append addresses, wordsBE_bigEndian_four short, wordsBE_bigEndian_four typed]
  simp only [List.sum_append, List.sum_cons, List.sum_nil, Nat.add_assoc ip 8 32]
  omega

/-- **`net_ip6_checksum` is the Internet checksum with its bytes swapped.** -/
theorem netIp6Checksum_eq {mem : Memory} {ip type length : Nat} (typed : type < 2 ^ 16)
    (short : length < 2 ^ 16) (header : mem.loadLE (ip + 4) 2 = htons length) :
    netIp6Checksum mem ip type length =
      swapBytes (internetChecksum (pseudoHeader mem ip length type ++
        mem.bytes (ip + 40) length)) := by
  have words : ∀ word ∈ type :: length :: wordsBE (mem.bytes (ip + 8) (32 + length)),
      word < 2 ^ 16 := by
    simp only [List.forall_mem_cons]
    exact ⟨typed, short, wordsBE_lt _⟩
  have first : checksum mem (ip + 4) 2 (htons type) = residue (htons type + htons length) := by
    rw [checksum_eq (neverOverflows mem _ (show 2 < 2 ^ 17 by decide) (htons_lt type)),
      plainSum_two, header]
  have second : checksum mem (ip + 8) (32 + length) (residue (htons type + htons length)) =
      residue (htons type + htons length + (wordsLE (mem.bytes (ip + 8) (32 + length))).sum) := by
    rw [checksum_eq (neverOverflows mem _ (by omega) (residue_lt _)), plainSum, residue_add]
  have swapped : htons type + htons length + (wordsLE (mem.bytes (ip + 8) (32 + length))).sum =
      ((type :: length :: wordsBE (mem.bytes (ip + 8) (32 + length))).map swapBytes).sum := by
    simp only [List.map_cons, List.sum_cons, Nat.add_assoc]
    rfl
  simp only [netIp6Checksum]
  rw [first, second, swapped, residue_sum_swap words, internetChecksum, onesSum_wordsBE,
    wordsBE_packet_sum mem ip short typed]
  exact swapBytes_complement (residue_lt _)

/-- The fold is over after two turns: what is left has 16 bits, and more turns do nothing. -/
def FoldEnds (sum : Nat) : Prop :=
  foldSum 2 sum >>> 16 = 0 ∧ ∀ fuel, foldSum (fuel + 2) sum = foldSum 2 sum

theorem foldEnds {sum : Nat} (fits : sum < 2 ^ 32) : FoldEnds sum := by
  have bounded := residue_lt sum
  refine ⟨?_, fun fuel => ?_⟩
  · rw [foldSum_eq_residue fits 0, Nat.shiftRight_eq_div_pow]
    omega
  · rw [foldSum_eq_residue fits, foldSum_eq_residue fits 0]

/-- A swapped word stored with its low byte first has its high byte first. -/
theorem bytes_storeLE_swapBytes (mem : Memory) (address value : Nat) :
    (mem.storeLE address 2 (swapBytes value)).bytes address 2 = bigEndian 2 value := by
  have byte : ∀ {first second : Nat}, first % 256 = second % 256 →
      UInt8.ofNat first = UInt8.ofNat second := by
    intro first second same
    rw [← UInt8.toNat_inj, UInt8.toNat_ofNat', UInt8.toNat_ofNat']
    exact same
  have quotient : ∀ {first second : Nat}, second < 256 →
      (first * 256 + second) / 256 = first ∧ (first * 256 + second) % 256 = second := by omega
  obtain ⟨low, high⟩ := @quotient (value % 256) (value / 256 % 256) (Nat.mod_lt _ (by decide))
  rw [Memory.storeLE, Memory.bytes_overwrite, Memory.bytes_two]
  simp only [bigEndian, Nat.zero_add, Nat.pow_zero, Nat.pow_one, Nat.div_one, List.cons.injEq,
    and_true, swapBytes]
  refine ⟨byte high, byte ?_⟩
  rw [low, Nat.mod_mod]

/-- The bytes of a packet around a word of it. -/
theorem bytes_around (mem : Memory) (start : Nat) {offset length : Nat} (inside : offset < length) :
    mem.bytes start length = mem.bytes start offset ++
      mem.bytes (start + offset) (min 2 (length - offset)) ++
        mem.bytes (start + offset + 2) (length - (offset + 2)) := by
  by_cases whole : offset + 2 ≤ length
  · rw [Nat.min_eq_left (by omega), ← mem.bytes_add, Nat.add_assoc start, ← mem.bytes_add,
      show offset + 2 + (length - (offset + 2)) = length by omega]
  · rw [show length - (offset + 2) = 0 by omega, show min 2 (length - offset) = 1 by omega,
      show length = offset + 1 by omega, mem.bytes_add]
    exact (List.append_nil _).symm

/-- A receiver that sums a packet with its checksum in a field of zeros gets all ones. -/
theorem onesSum_stored {mem stored : Memory} {ip type length offset : Nat} (even : offset % 2 = 0)
    (inside : offset < length) (zero : mem (ip + 40 + offset) = 0)
    (zeroNext : mem (ip + 40 + offset + 1) = 0)
    (outside : ∀ start size, start + size ≤ ip + 40 + offset ∨ ip + 40 + offset + 2 ≤ start →
      stored.bytes start size = mem.bytes start size)
    (checksum : stored.bytes (ip + 40 + offset) 2 = bigEndian 2 (internetChecksum
      (pseudoHeader mem ip length type ++ mem.bytes (ip + 40) length))) :
    onesSum (wordsBE (pseudoHeader stored ip length type ++
      stored.bytes (ip + 40) (max length (offset + 2)))) = 0xFFFF := by
  have pseudo : pseudoHeader stored ip length type = pseudoHeader mem ip length type := by
    rw [pseudoHeader, outside _ _ (by omega), pseudoHeader]
  have field : mem.bytes (ip + 40 + offset) (min 2 (length - offset)) = [0, 0] ∨
      mem.bytes (ip + 40 + offset) (min 2 (length - offset)) = [0] ∧
        mem.bytes (ip + 40 + offset + 2) (length - (offset + 2)) = [] := by
    by_cases whole : offset + 2 ≤ length
    · left
      rw [Nat.min_eq_left (by omega), mem.bytes_two, zero, zeroNext]
    · right
      rw [show length - (offset + 2) = 0 by omega, show min 2 (length - offset) = 1 by omega]
      exact ⟨congrArg (fun byte => [byte]) zero, rfl⟩
  have payload := bytes_around mem (ip + 40) inside
  have packet : stored.bytes (ip + 40) (max length (offset + 2)) = mem.bytes (ip + 40) offset ++
      bigEndian 2 (internetChecksum (pseudoHeader mem ip length type ++
        mem.bytes (ip + 40) length)) ++ mem.bytes (ip + 40 + offset + 2) (length - (offset + 2)) := by
    rw [show max length (offset + 2) = offset + 2 + (length - (offset + 2)) by omega,
      Memory.bytes_add, Memory.bytes_add, outside _ _ (by omega), checksum,
      outside _ _ (by omega), Nat.add_assoc (ip + 40)]
  have evenStart : (pseudoHeader mem ip length type ++ mem.bytes (ip + 40) offset).length % 2 = 0 := by
    simp only [pseudoHeader, List.length_append, Memory.bytes_length, bigEndian_length]
    omega
  have verified := onesSum_with_checksum evenStart field
  rw [pseudo, packet]
  simpa only [payload, List.append_assoc] using verified

/-- **The checksum in a packet is the Internet checksum.** For a packet with its length in its
header, no sum leaves the 32 bits of the accumulator, the folds end, the two bytes stored are
those of the Internet checksum over the pseudo-header and the packet, and a receiver that sums
both with the stored checksum gets all ones. -/
theorem netIp6Checksum_correct (mem : Memory) (ip type length : Nat) (typed : type < 2 ^ 16)
    (short : length ≤ 65535) (header : mem.loadLE (ip + 4) 2 = htons length) :
    NeverOverflows mem (ip + 4) 2 (htons type) ∧
    NeverOverflows mem (ip + 8) (32 + length) (checksum mem (ip + 4) 2 (htons type)) ∧
    FoldEnds (plainSum mem (ip + 4) 2 (htons type)) ∧
    FoldEnds (plainSum mem (ip + 8) (32 + length) (checksum mem (ip + 4) 2 (htons type))) ∧
    ∀ offset, offset % 2 = 0 → offset < length →
      mem (ip + 40 + offset) = 0 → mem (ip + 40 + offset + 1) = 0 →
      let stored := mem.storeLE (ip + 40 + offset) 2 (netIp6Checksum mem ip type length)
      stored.bytes (ip + 40 + offset) 2 =
          bigEndian 2 (internetChecksum (pseudoHeader mem ip length type ++
            mem.bytes (ip + 40) length)) ∧
        onesSum (wordsBE (pseudoHeader stored ip length type ++
          stored.bytes (ip + 40) (max length (offset + 2)))) = 0xFFFF := by
  have fits : length < 2 ^ 16 := by omega
  have first := neverOverflows mem (ip + 4) (show 2 < 2 ^ 17 by decide) (htons_lt type)
  have second := neverOverflows mem (ip + 8) (show 32 + length < 2 ^ 17 by omega)
    (show checksum mem (ip + 4) 2 (htons type) < 2 ^ 16 from Nat.mod_lt _ (by decide))
  refine ⟨first, second, foldEnds first.2, foldEnds second.2, ?_⟩
  intro offset even inside zero zeroNext stored
  have checksum := netIp6Checksum_eq typed fits header
  have bytes : stored.bytes (ip + 40 + offset) 2 = bigEndian 2 (internetChecksum
      (pseudoHeader mem ip length type ++ mem.bytes (ip + 40) length)) := by
    show (mem.storeLE _ 2 _).bytes _ 2 = _
    rw [checksum, bytes_storeLE_swapBytes]
  refine ⟨bytes, onesSum_stored even inside zero zeroNext ?_ bytes⟩
  exact fun _ _ apart => mem.bytes_overwrite_of_disjoint apart

/-- A packet of three bytes at the start of memory, with zeros for the first two. -/
def samplePacket : Memory :=
  (Memory.storeLE (fun index => UInt8.ofNat (7 * index)) 4 2 (htons 3)).fill 40 2 0

theorem netIp6Checksum_correct_sample :
    let stored := samplePacket.storeLE 40 2 (netIp6Checksum samplePacket 0 58 3)
    stored.bytes 40 2 =
        bigEndian 2 (internetChecksum (pseudoHeader samplePacket 0 3 58 ++ samplePacket.bytes 40 3)) ∧
      onesSum (wordsBE (pseudoHeader stored 0 3 58 ++ stored.bytes 40 3)) = 0xFFFF :=
  (netIp6Checksum_correct samplePacket 0 58 3 (by decide) (by decide) (by decide)).2.2.2.2 0
    (by decide) (by decide) (by decide) (by decide)

end VineyardLoader
