import VineyardLoader.Uefi.Machine

/-!
# The state of the network boot

The globals of the network code, the frame that is being handled, and the volume that
received files go to. Pool memory is a block of its own for each allocation. The transmit
buffers are linked through their first words, so they lie in one memory.

The state also keeps notes of what an observer sees: which bytes of the frame were read,
which copies went into the file buffer, which acknowledgements were sent and which files
were written. No function of the source depends on the notes.

A read outside a block sees whatever follows the block. A write outside a block, or through
a null pointer, has no meaning, and the program stops there with `Halt.undefined`.
-/

set_option autoImplicit false

namespace VineyardLoader

/-- `vy_netboot_state_t`. -/
inductive NetbootState where
  | preinit
  | advertising
  | cmdWait
  | fileTransfer
deriving Repr, DecidableEq

/-- `vy_netboot_t`. A null pointer is no block. -/
structure Netboot where
  state : NetbootState
  fileInfo : Option Block
  fileBuffer : Option Block
  fileBytesTransferred : Nat
  filePacketsTransferred : Nat

/-- An access to an object: where it starts, how long it is, and how long the object is. -/
structure Access where
  start : Nat
  size : Nat
  limit : Nat
deriving Repr, DecidableEq

/-- The access stays inside the object. -/
def Access.Inside (access : Access) : Prop := access.start + access.size ≤ access.limit

instance (access : Access) : Decidable access.Inside := inferInstanceAs (Decidable (_ ≤ _))

/-- `vy_netboot_ack_t`. -/
structure Ack where
  type : Nat
  fileFragment : Nat
deriving Repr, DecidableEq

/-- A fragment that was taken into the file buffer. -/
structure Accepted where
  fragmentId : Nat
  data : List UInt8
deriving Repr, DecidableEq

/-- A call of `Write`: the path, the bytes, and the bytes of the fragments accepted since the
transfer was announced. -/
structure FileWrite where
  path : List Nat
  data : List UInt8
  supplied : List UInt8
deriving Repr, DecidableEq

/-- A call of `Transmit`: the bytes of the frame, and whether the driver took it. -/
structure Transmission where
  address : Nat
  bytes : List UInt8
  taken : Bool
deriving Repr, DecidableEq

/-- The state of the network code. -/
structure NetState where
  /-- The buffer that `net_poll` receives into. -/
  frame : Memory
  netboot : Netboot
  llMacAddr : Memory
  ip6LlAddr : Memory
  ip6SnmAddr : Memory
  remoteMacAddr : Memory
  remoteIp6Addr : Memory
  netPollContinue : Bool
  netStopAdvertising : Bool
  /-- The memory of the transmit buffers. -/
  mem : Memory
  ethBufferPhys : Nat
  /-- The first free transmit buffer, or zero. -/
  ethBufpool : Nat
  ethBufpoolAvail : Nat
  /-- The files of the volume by their paths. -/
  volume : List Nat → Option (List UInt8)
  /-- The ranges of the frame that were read. -/
  frameReads : List Extent
  /-- The reads of the path of the announced file. -/
  pathReads : List Access
  /-- The message lengths from which the size of a header was subtracted. -/
  infoLengths : List Nat
  /-- The copies of fragment data into the file buffer. -/
  copies : List Access
  /-- The fragments accepted since the last announcement. -/
  accepted : List Accepted
  acks : List Ack
  fileWrites : List FileWrite
  transmissions : List Transmission

/-- The answers of the firmware, as functions of the state they are asked in. -/
structure NetFirmware where
  /-- The address and the old contents of a pool allocation, or a refusal. -/
  allocatePool : NetState → Nat → Option (Nat × Memory)
  /-- Whether a refused `AllocatePool` leaves the pointer that it was to set as it was. If not,
  the pointer is null afterwards. -/
  refusalKeeps : NetState → Nat → Bool
  freePool : NetState → Bool
  /-- Whether `Transmit` takes a frame of the given address and length. -/
  transmit : NetState → Nat → Nat → Bool
  loadedImage : NetState → Bool
  fileSystem : NetState → Bool
  openVolume : NetState → Bool
  openFile : NetState → List Nat → Bool
  writeFile : NetState → Bool
  getVariable : NetState → Bool

/-- Programs of the network code. -/
abbrev Net := EStateM Halt NetState

/-! ## The frame -/

/-- The state with a read of the frame noted. -/
def NetState.withRead (s : NetState) (offset size : Nat) : NetState :=
  { s with frameReads := ⟨offset, size⟩ :: s.frameReads }

/-- Note a read of the frame. -/
def noteRead (offset size : Nat) : Net Unit :=
  modify fun s => s.withRead offset size

/-- A number in the frame, the low byte first. -/
def frameLE (offset width : Nat) : Net Nat := do
  noteRead offset width
  return (← get).frame.loadLE offset width

/-- Bytes of the frame. -/
def frameBytes (offset size : Nat) : Net Memory := do
  noteRead offset size
  let frame := (← get).frame
  return fun index => frame (offset + index)

/-! ## Pool memory -/

variable (fw : NetFirmware)

/-- `AllocatePool`. -/
def netAllocatePool (size : Nat) : Net (Option Block) := do
  return (fw.allocatePool (← get) size).map fun answer => ⟨answer.1, size, answer.2⟩

/-- What a refused `AllocatePool` makes of the pointer that it was to set. -/
def NetFirmware.refused (asked : NetState) (size : Nat) (pointer : Option Block) : Option Block :=
  if fw.refusalKeeps asked size then pointer else none

/-- A status under `EFIERR`. -/
def netErr (succeeded : Bool) : Net Unit :=
  if succeeded then return else throw .exit

/-- `malloc`. -/
def netMalloc (size : Nat) : Net Block := do
  match ← netAllocatePool fw size with
  | some block => return block
  | none => throw .exit

/-- `free`. -/
def netFree (_block : Block) : Net Unit := do
  netErr (fw.freePool (← get))

/-- `memcpy` into a block. -/
def Block.copy (block : Option Block) (start size : Nat) (source : Memory) : Net (Option Block) :=
  if size = 0 then return block
  else match block with
    | none => throw .undefined
    | some block =>
        if start + size ≤ block.size then
          return some { block with bytes := block.bytes.overwrite start size source }
        else throw .undefined

/-- The block a pointer points to, where it is dereferenced. -/
def Block.deref (block : Option Block) : Net Block :=
  match block with
  | some block => return block
  | none => throw .undefined

end VineyardLoader
