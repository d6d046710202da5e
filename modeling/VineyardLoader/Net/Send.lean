import VineyardLoader.Net.State

/-!
# Sending frames

The transmit buffers, the headers and the checksum, and the two ways to send: UDP for
netboot messages and ICMPv6 for replies.

`unsigned long` has 32 bits on the target of the build, so the mask with which a buffer is
recovered from a pointer has them too.
-/

set_option autoImplicit false

namespace VineyardLoader

def ethMtu : Nat := 1514

/-- `htons`, and `ntohs`. -/
def htons (d : Nat) : Nat := d % 256 * 256 + d / 256 % 256

/-- Whether two memories agree on the first bytes: `memcmp` is zero. -/
def sameBytes (first second : Memory) (count : Nat) : Bool :=
  (List.range count).all fun index => first index == second index

/-- `ip6_all_nodes`. -/
def ip6AllNodes : Memory := fun index =>
  [0xFF, 0x02, 0, 0, 0, 0, 0, 0, 0, 0, 0, 0, 0, 0, 0, 1].getD index 0

/-- `net_ip6_empty`. -/
def netIp6Empty (ip : Memory) : Bool := sameBytes ip (fun _ => 0) 16

/-! ## Transmit buffers -/

/-- `net_bufpool_return`. The check of the range only prints. -/
def netBufpoolReturn (data : Nat) : Net Unit :=
  modify fun s =>
    let buf := data &&& 0xFFFFF800
    { s with
      mem := s.mem.store64 buf s.ethBufpool
      ethBufpoolAvail := (s.ethBufpoolAvail + 1) % 2 ^ 32
      ethBufpool := buf }

/-- `net_bufpool_get`. -/
def netBufpoolGet (size : Nat) : Net (Option Nat) := do
  let s ← get
  if ethMtu < size then return none
  else if s.ethBufpool = 0 then return none
  else
    let buf := s.ethBufpool
    set { s with
      ethBufpool := s.mem.load64 buf
      mem := s.mem.store64 buf 0
      ethBufpoolAvail := (s.ethBufpoolAvail + 2 ^ 32 - 1) % 2 ^ 32 }
    return some (buf + 8)

/-! ## Checksums -/

/-- The sum of 16-bit words, in 32 bits. -/
def sumWords (mem : Memory) : Nat → Nat → Nat → Nat
  | 0, _, sum => sum
  | count + 1, address, sum =>
      sumWords mem count (address + 2) ((sum + mem.loadLE address 2) % 2 ^ 32)

/-- The loop that folds a sum of 32 bits to 16. It ends after two turns. -/
def foldSum : Nat → Nat → Nat
  | 0, sum => sum
  | fuel + 1, sum =>
      if sum >>> 16 = 0 then sum else foldSum fuel ((sum &&& 0xFFFF) + (sum >>> 16))

/-- `checksum`. -/
def checksum (mem : Memory) (data len sumInit : Nat) : Nat :=
  let sum := sumWords mem (len / 2) data sumInit
  let sum :=
    if len % 2 = 0 then sum
    else (sum + (mem.loadLE (data + len / 2 * 2) 2 &&& 0xFF)) % 2 ^ 32
  foldSum 3 sum % 2 ^ 16

/-- `net_ip6_checksum`. -/
def netIp6Checksum (mem : Memory) (ip type length : Nat) : Nat :=
  let sum := checksum mem (ip + 4) 2 (htons type)
  let sum := checksum mem (ip + 8) (32 + length) sum
  2 ^ 16 - 1 - sum

/-! ## Headers -/

/-- `net_ip6_multicast_from_ip6`. -/
def netIp6MulticastFromIp6 (ip : Memory) : Memory := fun index =>
  if index < 2 then 0x33 else ip (index + 10)

/-- `net_ip6_resolve`. -/
def netIp6Resolve (ip : Memory) : Net (Option Memory) := do
  let s ← get
  if ip 0 = 0xFF then return some (netIp6MulticastFromIp6 ip)
  else if sameBytes ip s.remoteIp6Addr 16 then return some s.remoteMacAddr
  else return none

/-- `net_ip6_packet_setup`: whether the address was found. -/
def netIp6PacketSetup (p : Nat) (addr : Memory) (length type : Nat) : Net Bool := do
  match ← netIp6Resolve addr with
  | none => return false
  | some mac =>
      modify fun s =>
        let mem := s.mem.overwrite p 6 mac
        let mem := mem.overwrite (p + 6) 6 s.llMacAddr
        let mem := mem.storeLE (p + 12) 2 (htons 0x86DD)
        let mem := mem.storeLE (p + 14) 4 0x60
        let mem := mem.storeLE (p + 18) 2 (htons (length % 2 ^ 16))
        let mem := mem.storeLE (p + 20) 1 type
        let mem := mem.storeLE (p + 21) 1 255
        let mem := mem.overwrite (p + 22) 16 s.ip6LlAddr
        { s with mem := mem.overwrite (p + 38) 16 addr }
      return true

variable (fw : NetFirmware)

/-- `net_eth_send`. -/
def netEthSend (data len : Nat) : Net Unit := do
  let s ← get
  let taken := fw.transmit s data len
  set { s with
    transmissions :=
      ⟨data, (List.range len).map fun index => s.mem (data + index), taken⟩ :: s.transmissions }
  if !taken then netBufpoolReturn data

/-- `net_udp6_send`. Its status is not looked at. -/
def netUdp6Send (data : Memory) (len : Nat) (addr : Memory) (destPort sourcePort : Nat) :
    Net Unit := do
  let length := len + 8
  match ← netBufpoolGet ethMtu with
  | none => return
  | some p =>
      if ← netIp6PacketSetup p addr length 17 then
        modify fun s =>
          let mem := s.mem.storeLE (p + 54) 2 (htons sourcePort)
          let mem := mem.storeLE (p + 56) 2 (htons destPort)
          let mem := mem.storeLE (p + 58) 2 (htons (length % 2 ^ 16))
          let mem := mem.storeLE (p + 60) 2 0
          let mem := mem.overwrite (p + 62) len data
          { s with mem := mem.storeLE (p + 60) 2 (netIp6Checksum mem (p + 14) 17 length) }
        netEthSend fw p (54 + length)
      else netBufpoolReturn p

/-- `net_icmp6_send`, with the data read where it is copied. Its status is not looked at. -/
def netIcmp6Send (data : Net Memory) (length : Nat) (daddr : Memory) : Net Unit := do
  match ← netBufpoolGet ethMtu with
  | none => return
  | some p =>
      if 1460 < length then netBufpoolReturn p
      else if ← netIp6PacketSetup p daddr length 58 then
        let data ← data
        modify fun s =>
          let mem := s.mem.overwrite (p + 54) length data
          { s with mem := mem.storeLE (p + 56) 2 (netIp6Checksum mem (p + 14) 58 length) }
        netEthSend fw p (54 + length)
      else netBufpoolReturn p

end VineyardLoader
