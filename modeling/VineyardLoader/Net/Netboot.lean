import VineyardLoader.Net.Send

/-!
# Netboot messages

`netboot_cmd_send` and `netboot_cmd_receive`. A message that arrives during a file transfer
is first handled as a fragment, if it is one, and then every message goes through the
dispatch on its command. The fields of a message are read from the frame at the place where
the message starts.
-/

set_option autoImplicit false

namespace VineyardLoader

/-! ## Commands and fields -/

def cmdAdvertise : Nat := 0
def cmdStopAdvertising : Nat := 1
def cmdShutdown : Nat := 2
def cmdFwsetup : Nat := 3
def cmdReboot : Nat := 4
def cmdFileSendInit : Nat := 5
def cmdFileFragment : Nat := 6
def cmdAck : Nat := 7
def cmdBoot : Nat := 8

/-- `file_size` of a file info. -/
def Block.fileSize (info : Block) : Nat := info.bytes.load64 0

/-- `path` of a file info. -/
def Block.path (info : Block) : Memory := fun index => info.bytes (32 + index)

/-- The bytes of an acknowledgement, with zeros between its fields. -/
def Ack.encode (ack : Ack) : Memory :=
  (Memory.storeLE (fun _ => 0) 0 4 ack.type).storeLE 8 8 ack.fileFragment

/-! ## Strings -/

/-- The search for the end of a string. -/
def strlenLoop (str : Memory) : Nat → Nat → Option Nat
  | 0, _ => none
  | fuel + 1, index => if str index = 0 then some index else strlenLoop str fuel (index + 1)

/-- `strlen`. A string that does not end in the whole address space has no length. -/
def strlen (str : Memory) : Option Nat := strlenLoop str (2 ^ 64) 0

/-- One turn of the loop of `uefi_to_ucs2`: the next index and the unit. The following bytes
are taken from after the new index, as in the source. -/
def ucs2Step (utf8 : Memory) (utf8i : Nat) : Nat × Nat :=
  let c0 := (utf8 utf8i).toNat
  if c0 &&& 0x80 = 0 then (utf8i + 1, c0)
  else if c0 &&& 0xE0 = 0xC0 then
    let utf8i := utf8i + 2
    (utf8i, ((c0 &&& 0x1F) <<< 6) ||| ((utf8 (utf8i + 1)).toNat &&& 0x3F))
  else if c0 &&& 0xF0 = 0xE0 then
    let utf8i := utf8i + 3
    (utf8i, ((c0 &&& 0xF) <<< 12) ||| (((utf8 (utf8i + 1)).toNat &&& 0x3F) <<< 6) |||
      ((utf8 (utf8i + 2)).toNat &&& 0x3F))
  else (utf8i + 4, 0xFFFC)

/-- The loop of `uefi_to_ucs2` with room for a number of units, the last of which is the
final zero. Without room for the next unit it writes outside its output. -/
def ucs2Loop (utf8 : Memory) : Nat → Nat → Option (List Nat)
  | 0, _ => none
  | room + 1, utf8i =>
      if utf8 utf8i = 0 then some []
      else
        let (next, value) := ucs2Step utf8 utf8i
        (ucs2Loop utf8 room next).map fun units => value :: units

/-- `uefi_to_ucs2` into an output of the given number of units. -/
def uefiToUcs2 (utf8 : Memory) (room : Nat) : Option (List Nat) := ucs2Loop utf8 room 0

/-! ## Sending -/

variable (fw : NetFirmware)

/-- `netboot_cmd_send`. -/
def netbootCmdSend (cmd : Nat) (data : Option Memory) (dataLen : Nat) : Net Unit := do
  let msg ← netMalloc fw (16 + dataLen)
  let bytes := (msg.bytes.storeLE 0 4 cmd).store64 8 (16 + dataLen)
  let bytes := match data with
    | some data => bytes.overwrite 16 dataLen data
    | none => bytes
  let remote := (← get).remoteIp6Addr
  if !netIp6Empty remote then netUdp6Send fw bytes (16 + dataLen) remote 57778 57777
  else netUdp6Send fw bytes (16 + dataLen) ip6AllNodes 57778 57777
  netFree fw msg

/-- Send an acknowledgement. -/
def sendAck (ack : Ack) : Net Unit := do
  modify fun s => { s with acks := s.acks ++ [ack] }
  netbootCmdSend fw cmdAck (some ack.encode) 16

/-! ## Receiving -/

/-- The bytes of the first fields of a list of fragments. -/
def suppliedBytes (accepted : List Accepted) : List UInt8 := accepted.flatMap Accepted.data

/-- The next fragment in order goes to the end of what has been received. -/
def acceptFragment (data fragmentId dataLen : Nat) : Net Unit := do
  let s := (← get).netboot
  let source ← frameBytes (data + 32) dataLen
  modify fun net =>
    { net with
      copies := net.copies ++
        [⟨s.fileBytesTransferred, dataLen, (s.fileBuffer.map Block.size).getD 0⟩]
      accepted := net.accepted ++ [⟨fragmentId, (List.range dataLen).map source⟩] }
  let fileBuffer ← Block.copy s.fileBuffer s.fileBytesTransferred dataLen source
  modify fun net =>
    { net with netboot := { net.netboot with
        fileBuffer := fileBuffer
        fileBytesTransferred := (s.fileBytesTransferred + dataLen) % 2 ^ 64
        filePacketsTransferred := (s.filePacketsTransferred + 1) % 2 ^ 64 } }

/-- The path of the announced file in 16-bit units. A path without an end is read on past its
block. -/
def filePath (info : Block) : Net (List Nat) := do
  match strlen info.path with
  | none =>
      modify fun s => { s with pathReads := ⟨32, info.size + 1, info.size⟩ :: s.pathReads }
      throw .diverged
  | some length =>
      modify fun s => { s with pathReads := ⟨32, length + 1, info.size⟩ :: s.pathReads }
      let _ ← netMalloc fw ((length + 1) <<< 1)
      match uefiToUcs2 info.path (length + 1) with
      | some units => return units
      | none => throw .undefined

/-- Open the announced file on the volume of the loader, or make it. A file that is made here
comes to the volume with its first `Write`. -/
def openFile (info : Block) : Net (List Nat) := do
  let path ← filePath fw info
  netErr (fw.loadedImage (← get))
  netErr (fw.fileSystem (← get))
  netErr (fw.openVolume (← get))
  netErr (fw.openFile (← get) path)
  return path

/-- The bytes of the file buffer, as many as the announced file has. -/
def fileData (info : Block) : Net (List UInt8) :=
  if info.fileSize = 0 then return []
  else do
    let buffer ← Block.deref (← get).netboot.fileBuffer
    return (List.range info.fileSize).map buffer.bytes

/-- `Write` to the file at a path, from its start on. -/
def writeFile (path : List Nat) (data : List UInt8) : Net Unit := do
  netErr (fw.writeFile (← get))
  modify fun s =>
    { s with
      volume := fun other =>
        if other = path then some (data ++ ((s.volume path).getD []).drop data.length)
        else s.volume other
      fileWrites := s.fileWrites ++ [⟨path, data, suppliedBytes s.accepted⟩] }

/-- The part of `netboot_cmd_receive` after the last packet: the file is written, and the
transfer is reset. -/
def finishTransfer (info : Block) : Net Unit := do
  let path ← openFile fw info
  let data ← fileData info
  writeFile fw path data
  modify fun s => { s with netboot := ⟨.cmdWait, none, none, 0, 0⟩ }

/-- A fragment is taken if it is the next one, and acknowledged in any case: an older one
under its own number, and a later one under the number of the next one. -/
def takeFragment (data : Nat) : Net Unit := do
  let s := (← get).netboot
  let dataLen ← frameLE (data + 24) 8
  let fragmentId ← frameLE (data + 16) 8
  if fragmentId ≠ s.filePacketsTransferred then
    sendAck fw ⟨cmdFileFragment,
      if fragmentId < s.filePacketsTransferred then fragmentId else s.filePacketsTransferred⟩
  else
    acceptFragment data fragmentId dataLen
    sendAck fw ⟨cmdFileFragment, s.filePacketsTransferred⟩

/-- The part of `netboot_cmd_receive` for a fragment during a transfer. The check of its
length against `data_per_packet` only prints. -/
def receiveFragment (data : Nat) : Net Unit := do
  let info ← Block.deref (← get).netboot.fileInfo
  takeFragment fw data
  if (← get).netboot.fileBytesTransferred = info.fileSize then finishTransfer fw info

/-- The file info of an announcement goes to a block of its own. The status of
`AllocatePool` is not looked at. -/
def receiveInfo (data : Nat) : Net (Option Block) := do
  let messageLength ← frameLE (data + 8) 8
  modify fun s => { s with infoLengths := messageLength :: s.infoLengths }
  let size := (messageLength + 2 ^ 64 - 16) % 2 ^ 64
  let allocated ← netAllocatePool fw size
  let s ← get
  let fileInfo := allocated.or (fw.refused s size s.netboot.fileInfo)
  let source ← frameBytes (data + 16) size
  Block.copy fileInfo 0 size source

/-- The transfer of an announced file starts with a buffer for it. This status is not looked
at either. -/
def startTransfer (fileInfo : Option Block) : Net Unit := do
  modify fun s =>
    { s with
      netboot := { s.netboot with fileInfo := fileInfo, state := .fileTransfer }
      accepted := [] }
  let info ← Block.deref fileInfo
  let allocated ← netAllocatePool fw info.fileSize
  let s ← get
  let fileBuffer := allocated.or (fw.refused s info.fileSize s.netboot.fileBuffer)
  modify fun s => { s with netboot := { s.netboot with fileBuffer := fileBuffer } }

/-- The part of `netboot_cmd_receive` for the announcement of a file. -/
def receiveInit (data : Nat) : Net Unit := do
  let fileInfo ← receiveInfo fw data
  startTransfer fw fileInfo
  sendAck fw ⟨cmdFileSendInit, 0⟩

/-- The dispatch of `netboot_cmd_receive` on the command. -/
def dispatch (data cmd : Nat) : Net Unit := do
  if cmd = cmdFwsetup then
    modify fun s => { s with netPollContinue := false }
    if fw.getVariable (← get) then throw .reset
  else if cmd = cmdStopAdvertising then
    modify fun s => { s with netStopAdvertising := true }
  else if cmd = cmdShutdown then
    modify fun s => { s with netPollContinue := false }
    throw .reset
  else if cmd = cmdReboot then
    modify fun s => { s with netPollContinue := false }
    throw .reset
  else if cmd = cmdFileSendInit then receiveInit fw data
  else if cmd = cmdBoot then modify fun s => { s with netPollContinue := false }

/-- The part of `netboot_cmd_receive` during a transfer. A command other than a fragment only
prints. -/
def receiveTransfer (data : Nat) : Net Unit := do
  if (← get).netboot.state = .fileTransfer then
    if (← frameLE data 4) = cmdFileFragment then receiveFragment fw data

/-- `netboot_cmd_receive`. -/
def netbootCmdReceive (data : Nat) : Net Unit := do
  receiveTransfer fw data
  dispatch fw data (← frameLE data 4)

end VineyardLoader
