import VineyardLoader.Net.Receive

/-!
# The polling loop

`net_bufpool_init`, and `net_poll`, which advertises the loader until it is told to stop, takes
one transmit buffer back from the driver, and handles one received frame.

The driver answers anew in every turn of the loop, so each turn has answers of its own.
-/

set_option autoImplicit false

namespace VineyardLoader

/-- `ETH_BUFFERS`. -/
def ethBuffers : Nat := 4

/-- `ETH_BUFFERS_PAGES`. -/
def ethBuffersPages : Nat := ethBuffers / 2 + ethBuffers % 2

/-- `net_bufpool_init`, with the answer of `AllocatePages`. -/
def netBufpoolInit (pages : Option Nat) : Net Unit := do
  match pages with
  | none => throw .exit
  | some base =>
      modify fun s => { s with ethBufferPhys := base }
      repeatTimes (fun index => netBufpoolReturn (base + 2048 * index)) ethBuffers

/-- The state of the polling loop. It also notes the transmit buffers that the driver gave back. -/
structure PollState where
  net : NetState
  /-- Whether there is a network device. -/
  snp : Bool
  netAdvertised : Bool
  /-- Whether there is a timer. -/
  netTimer : Bool
  handedBack : List Nat

/-- An answer of `Receive`. -/
inductive ReceiveAnswer where
  | frame (data : Memory) (size : Nat)
  | notReady
  | failed

/-- The answers of the firmware in one turn of the loop. -/
structure PollFirmware where
  net : NetFirmware
  setTimer : PollState → Bool
  checkEvent : PollState → Bool
  /-- The transmit buffer that `GetStatus` gives back, where zero is none, or a failure. -/
  getStatus : PollState → Option Nat
  receive : PollState → ReceiveAnswer

/-- Programs of the polling loop. -/
abbrev Poll := EStateM Halt PollState

/-- A program of the network code in the polling loop. -/
def liftNet {α : Type} (program : Net α) : Poll α := fun s =>
  match program s.net with
  | .ok value net => .ok value { s with net := net }
  | .error reason net => .error reason { s with net := net }

variable (fw : PollFirmware)

/-- `net_timer_set`. -/
def netTimerSet : Poll Unit := do
  let s ← get
  if !s.netTimer then return
  else if fw.setTimer s then return
  else throw .exit

/-- `net_timer_expired`. -/
def netTimerExpired : Poll Bool := do
  let s ← get
  if !s.netTimer then return false
  else return fw.checkEvent s

/-- `net_advertise`. -/
def netAdvertise : Net Unit := netbootCmdSend fw.net cmdAdvertise none 0

/-- The first part of `net_poll`: an advertisement at the start, and whenever the timer has expired. -/
def pollAdvertise : Poll Unit := do
  let s ← get
  if s.snp && !s.netAdvertised then
    liftNet (netAdvertise fw)
    netTimerSet fw
    modify fun s => { s with netAdvertised := true }
  else if (← netTimerExpired fw) && !s.net.netStopAdvertising then
    liftNet (netAdvertise fw)
    netTimerSet fw

/-- A transmit buffer that the driver gives back. One outside the pool is only reported. -/
def takeBack (txBuf : Nat) : Poll Unit := do
  let s ← get
  if txBuf ≠ 0 then
    if s.net.ethBufferPhys ≤ txBuf ∧ txBuf < s.net.ethBufferPhys + ethBuffersPages * 0x1000 then
      modify fun s => { s with handedBack := txBuf :: s.handedBack }
      liftNet (netBufpoolReturn txBuf)

/-- The second part of `net_poll`: a transmit buffer is taken back. Whether `net_poll` goes on. -/
def pollStatus : Poll Bool := do
  let s ← get
  if s.net.ethBufpoolAvail < 16 then
    if !s.snp then throw .undefined
    else match fw.getStatus s with
      | none => return false
      | some txBuf =>
          takeBack txBuf
          return true
  else return true

/-- The last part of `net_poll`: a frame is received and handled. -/
def pollReceive : Poll Unit := do
  let s ← get
  if !s.snp then throw .undefined
  else match fw.receive s with
    | .frame data size =>
        modify fun s => { s with net := { s.net with frame := data } }
        let _ ← liftNet (netEthReceive fw.net size)
    | .notReady => return
    | .failed => throw .exit

/-- `net_poll`. -/
def netPoll : Poll Unit := do
  pollAdvertise fw
  if ← pollStatus fw then pollReceive fw

end VineyardLoader
