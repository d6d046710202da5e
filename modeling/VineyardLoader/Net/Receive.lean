import VineyardLoader.Net.Netboot

/-!
# Receiving frames

`net_eth_receive` and the two protocols below it: UDP, which carries netboot messages, and
ICMPv6. A frame has 14 bytes of Ethernet header, 40 bytes of IPv6 header, and then as many
bytes as the IPv6 header says.

The length from the IPv6 header is checked against the length of the frame. It is handed on to
UDP, where it is not looked at, and to ICMPv6.
-/

set_option autoImplicit false

namespace VineyardLoader

variable (fw : NetFirmware)

/-- `net_udp6_receive`, which does not look at the IPv6 header or at the length. -/
def netUdp6Receive (_ip data _len : Nat) : Net Unit := do
  if htons (← frameLE (data + 2) 2) = 57777 then netbootCmdReceive fw (data + 8)

/-- The neighbor advertisement that answers a solicitation. -/
def neighborAdvertisement (s : NetState) : Memory :=
  let reply := Memory.storeLE (fun _ => 0) 0 1 136
  let reply := reply.storeLE 4 4 0x60
  let reply := reply.overwrite 8 16 s.ip6LlAddr
  let reply := reply.storeLE 24 1 2
  let reply := reply.storeLE 25 1 1
  reply.overwrite 26 6 s.llMacAddr

/-- The part of `net_icmp6_receive` for a neighbor solicitation. An invalid one is discarded. -/
def neighborSolicitation (ip data len : Nat) : Net Unit := do
  if 24 ≤ len then
    if (← frameLE (data + 1) 1) = 0 then
      if (← frameLE (ip + 7) 1) = 255 then
        let target ← frameBytes (data + 8) 16
        if sameBytes target (← get).ip6LlAddr 16 then
          let reply := neighborAdvertisement (← get)
          let src ← frameBytes (ip + 8) 16
          netIcmp6Send fw (return reply) 32 src

/-- `net_icmp6_receive`. An echo request becomes its reply in place. -/
def netIcmp6Receive (ip data len : Nat) : Net Unit := do
  let type ← frameLE data 1
  if type = 128 then
    modify fun s => { s with frame := (s.frame.storeLE (data + 2) 2 0).storeLE data 1 129 }
    let src ← frameBytes (ip + 8) 16
    netIcmp6Send fw (frameBytes data len) len src
  else if type = 135 then neighborSolicitation fw ip data len

/-- The part of `net_eth_receive` after the checks: the sender is remembered, and the packet goes
to its protocol. -/
def netPacketReceive (len : Nat) : Net Unit := do
  let mac ← frameBytes 6 6
  let ip6 ← frameBytes 22 16
  modify fun s => { s with remoteMacAddr := mac, remoteIp6Addr := ip6 }
  let nextHeader ← frameLE 20 1
  if nextHeader = 17 then netUdp6Receive fw 14 54 len
  else if nextHeader = 58 then netIcmp6Receive fw 14 54 len

/-- `net_eth_receive`: whether its status is a success. -/
def netEthReceive (len : Nat) : Net Bool := do
  if len < 54 then return false
  else if (← frameLE 12 2) ≠ htons 0x86DD then return false
  else if (← frameLE 14 4) &&& 0xF0 ≠ 0x60 then return false
  else
    let n := htons (← frameLE 18 2)
    if len - 54 < n then return false
    else
      let dst ← frameBytes 38 16
      let s ← get
      if !sameBytes s.ip6LlAddr dst 16 && !sameBytes s.ip6SnmAddr dst 16 &&
          !sameBytes ip6AllNodes dst 16 then return true
      else
        netPacketReceive fw n
        return true

end VineyardLoader
