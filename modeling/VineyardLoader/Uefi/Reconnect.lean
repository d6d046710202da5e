import Mathlib.Data.Nat.Bitwise
import Mathlib.Tactic.Common
import VineyardLoader.Foundation.Sweeps
import VineyardLoader.Uefi.Machine

/-!
# Connecting the controllers

Before the loader looks for network interfaces it asks the firmware to connect drivers to every
controller. It takes one snapshot of the handle database, and for each handle of the snapshot
enumerates the database again to find out what kind of handle it is. The types are kept in an
array beside the new enumeration, and the handle of the snapshot is looked up in it by its index
in the snapshot.

Connecting a controller changes the database, but the firmware only appends handles to it, so
the snapshot stays the beginning of every later enumeration and the index means the same handle
in both. Every access to the type array is then inside it, and `ConnectController` is called
for exactly the handles that are due at their turn (`uefiIoReconnect_spec`).

The identifiers of the three protocols come from the headers of the interface and are
parameters.
-/

set_option autoImplicit false

namespace VineyardLoader

/-! ## The handle database -/

/-- `efi_guid`. The last eight bytes are kept as the word that the comparison reads. -/
structure EfiGuid where
  data1 : UInt32
  data2 : UInt16
  data3 : UInt16
  data4 : UInt64
deriving Repr, DecidableEq

/-- `uefi_guid_compare`. -/
def uefiGuidCompare (a b : EfiGuid) : Nat :=
  if a.data1 = b.data1 ∧ a.data2 = b.data2 ∧ a.data3 = b.data3 then
    if a.data4 = b.data4 then 0 else 1
  else 1

/-- The comparison answers 0 for equal identifiers only. -/
theorem uefiGuidCompare_eq_zero_iff (a b : EfiGuid) : uefiGuidCompare a b = 0 ↔ a = b := by
  obtain ⟨data1, data2, data3, data4⟩ := a
  obtain ⟨other1, other2, other3, other4⟩ := b
  simp only [uefiGuidCompare, EfiGuid.mk.injEq]
  split
  · rename_i same
    simp [same]
  · rename_i different
    simp only [Nat.one_ne_zero, false_iff]
    exact fun same => different ⟨same.1, same.2.1, same.2.2.1⟩

/-- The identifiers of `guid.c` that the enumeration looks for. -/
structure ProtocolGuids where
  loadedImageProtocol : EfiGuid
  driverBindingProtocol : EfiGuid
  devicePathProtocol : EfiGuid

/-- `EFI_OPEN_PROTOCOL_BY_CHILD_CONTROLLER`. -/
def openProtocolByChildController : Nat := 0x08

/-- `efi_open_protocol_information_entry`: who opened a protocol, and how. -/
structure OpenProtocolInformationEntry where
  controllerHandle : Nat
  attributes : Nat
deriving Repr, DecidableEq

/-- The handle database: the handles in the order in which the firmware enumerates them, the
protocols of each, and how each of these is opened. -/
structure HandleDatabase where
  handles : List Nat
  nodup : handles.Nodup
  protocols : Nat → List EfiGuid
  openInformation : Nat → EfiGuid → List OpenProtocolInformationEntry

/-- The calls of the firmware that only ask. -/
inductive HandleQuery where
  | locateHandleBuffer
  | allocatePool (size : Nat)
  | protocolsPerHandle (handle : Nat)
  | openProtocolInformation (handle : Nat) (protocol : EfiGuid)
deriving Repr, DecidableEq

/-- The firmware's answers. They may depend on the controllers it was told to connect before. -/
structure HandleFirmware where
  /-- Whether a query succeeds. -/
  answers : List Nat → HandleQuery → Bool
  /-- What a pool allocation contains. -/
  poolContents : List Nat → Nat → Nat
  /-- `ConnectController`. -/
  connectController : List Nat → HandleDatabase → Nat → HandleDatabase
  /-- The database only grows, by handles at the end. -/
  connectController_grows : ∀ calls database handle,
    database.handles <+: (connectController calls database handle).handles

/-- Every query succeeds. -/
def HandleFirmware.AnswersAll (fw : HandleFirmware) : Prop :=
  ∀ calls query, fw.answers calls query = true

/-- The handle database, and the calls of `ConnectController` in order. -/
structure IoState where
  database : HandleDatabase
  calls : List Nat

abbrev IoProgram := EStateM Halt IoState

/-! ## The program -/

def efiHandleTypeUnknown : Nat := 0x000

def efiHandleTypeImageHandle : Nat := 0x001

def efiHandleTypeDriverBindingHandle : Nat := 0x002

def efiHandleTypeDeviceHandle : Nat := 0x080

def efiHandleTypeParentHandle : Nat := 0x100

section Program

variable (fw : HandleFirmware) (guids : ProtocolGuids)

/-- A query in `EFIERR`. -/
def efierrQuery (query : HandleQuery) : IoProgram PUnit := do
  let state ← get
  if fw.answers state.calls query = false then throw .exit

/-- A read of an array inside its bounds. -/
def readIndex (array : List Nat) (i : Nat) : IoProgram Nat :=
  match array[i]? with
  | some value => pure value
  | none => throw .undefined

/-- A write to an array inside its bounds. -/
def writeIndex (array : List Nat) (i value : Nat) : IoProgram (List Nat) :=
  if i < array.length then pure (array.set i value) else throw .undefined

/-- One entry of the open information: a child of the controller makes the handle its parent. -/
def openInfoTurn (controllerHandle handleType : Nat) (entry : OpenProtocolInformationEntry) :
    Nat :=
  if entry.controllerHandle = controllerHandle then
    if entry.attributes &&& openProtocolByChildController = openProtocolByChildController then
      handleType ||| efiHandleTypeParentHandle
    else handleType
  else handleType

/-- The identifier of a protocol: what it says about the type of the handle. -/
def guidTurn (handleType : Nat) (protocol : EfiGuid) : Nat :=
  let handleType :=
    if uefiGuidCompare protocol guids.loadedImageProtocol = 0 then
      handleType ||| efiHandleTypeImageHandle
    else handleType
  let handleType :=
    if uefiGuidCompare protocol guids.driverBindingProtocol = 0 then
      handleType ||| efiHandleTypeDriverBindingHandle
    else handleType
  if uefiGuidCompare protocol guids.devicePathProtocol = 0 then
    handleType ||| efiHandleTypeDeviceHandle
  else handleType

/-- One protocol of a handle: its identifier, and how it is opened. -/
def protocolTurn (controllerHandle handle handleType : Nat) (protocol : EfiGuid) :
    IoProgram Nat := do
  let handleType := guidTurn guids handleType protocol
  efierrQuery fw (.openProtocolInformation handle protocol)
  let state ← get
  let openInfo := state.database.openInformation handle protocol
  pure (openInfo.foldl (openInfoTurn controllerHandle) handleType)

/-- One handle: its type is gathered from its protocols and stored at its index. -/
def handleTurn (controllerHandle : Nat) (handleBuffer handleType : List Nat) (i : Nat) :
    IoProgram (List Nat) := do
  let handle ← readIndex handleBuffer i
  efierrQuery fw (.protocolsPerHandle handle)
  let state ← get
  let type ← (state.database.protocols handle).foldlM
    (protocolTurn fw guids controllerHandle handle) efiHandleTypeUnknown
  writeIndex handleType i type

/-- `uefi_io_parse_handles`: the enumerated handles, and the array of their types. The array is
fresh from the pool when the loop starts. -/
def uefiIoParseHandles (controllerHandle : Nat) : IoProgram (List Nat × List Nat) := do
  efierrQuery fw .locateHandleBuffer
  let state ← get
  let handleBuffer := state.database.handles
  let handleCount := handleBuffer.length
  efierrQuery fw (.allocatePool (handleCount * 4))
  let fresh := (List.range handleCount).map (fw.poolContents state.calls)
  let handleType ← (List.range handleCount).foldlM
    (handleTurn fw guids controllerHandle handleBuffer) fresh
  pure (handleBuffer, handleType)

/-- One turn of the search for a parent. -/
def parentTurn (handleType : List Nat) (parent : Bool) (i : Nat) : IoProgram Bool := do
  let type ← readIndex handleType i
  pure (if type &&& efiHandleTypeParentHandle ≠ 0 then true else parent)

/-- `ConnectController`, for every driver and recursively. Its status is not looked at. -/
def connectController (handle : Nat) : IoProgram PUnit :=
  modify fun state =>
    ⟨fw.connectController state.calls state.database handle, state.calls ++ [handle]⟩

/-- One turn of the loop over the snapshot. -/
def reconnectTurn (allHandleBuffer : List Nat) (i : Nat) : IoProgram PUnit := do
  let controllerHandle ← readIndex allHandleBuffer i
  let (handleBuffer, handleType) ← uefiIoParseHandles fw guids controllerHandle
  let type ← readIndex handleType i
  if type &&& efiHandleTypeDriverBindingHandle ≠ 0 ∨ type &&& efiHandleTypeImageHandle ≠ 0 then
    pure ⟨⟩
  else
    let parent ← (List.range handleBuffer.length).foldlM (parentTurn handleType) false
    if parent = false then
      let type ← readIndex handleType i
      if type &&& efiHandleTypeDeviceHandle ≠ 0 then connectController fw controllerHandle

/-- `uefi_io_reconnect`. -/
def uefiIoReconnect : IoProgram PUnit := do
  efierrQuery fw .locateHandleBuffer
  let state ← get
  let allHandleBuffer := state.database.handles
  repeatTimes (reconnectTurn fw guids allHandleBuffer) allHandleBuffer.length

end Program

/-! ## What is due -/

section Due

variable (guids : ProtocolGuids) (database : HandleDatabase) (controller : Nat)

/-- Somebody opened a protocol of the handle for a child of the controller. -/
def OpenedByChild (handle : Nat) (protocol : EfiGuid) : Prop :=
  ∃ entry ∈ database.openInformation handle protocol, entry.controllerHandle = controller ∧
    entry.attributes &&& openProtocolByChildController = openProtocolByChildController

/-- A controller without a driver: a device that is neither an image nor a driver and that is
not the parent of another handle. -/
structure Due : Prop where
  device : guids.devicePathProtocol ∈ database.protocols controller
  noImage : guids.loadedImageProtocol ∉ database.protocols controller
  noDriver : guids.driverBindingProtocol ∉ database.protocols controller
  noParent : ∀ handle ∈ database.handles, ∀ protocol ∈ database.protocols handle,
    ¬ OpenedByChild database controller handle protocol

instance (handle : Nat) (protocol : EfiGuid) :
    Decidable (OpenedByChild database controller handle protocol) :=
  inferInstanceAs (Decidable (∃ entry ∈ database.openInformation handle protocol, _ ∧ _))

instance : Decidable (Due guids database controller) :=
  decidable_of_iff
    (guids.devicePathProtocol ∈ database.protocols controller ∧
      guids.loadedImageProtocol ∉ database.protocols controller ∧
      guids.driverBindingProtocol ∉ database.protocols controller ∧
      ∀ handle ∈ database.handles, ∀ protocol ∈ database.protocols handle,
        ¬ OpenedByChild database controller handle protocol)
    ⟨fun ⟨device, noImage, noDriver, noParent⟩ => ⟨device, noImage, noDriver, noParent⟩,
      fun due => ⟨due.device, due.noImage, due.noDriver, due.noParent⟩⟩

end Due

/-! ## The types of the handles -/

section Types

variable (guids : ProtocolGuids) (database : HandleDatabase) (controller : Nat)

/-- What one protocol adds to the type of a handle. -/
def protocolType (handle handleType : Nat) (protocol : EfiGuid) : Nat :=
  (database.openInformation handle protocol).foldl (openInfoTurn controller)
    (guidTurn guids handleType protocol)

/-- The type of a handle. -/
def handleTypeOf (handle : Nat) : Nat :=
  (database.protocols handle).foldl (protocolType guids database controller handle)
    efiHandleTypeUnknown

variable (mask : Nat)

/-- A flag is set after it was set under a condition. -/
theorem ite_or_and_ne_zero_iff {condition : Prop} [Decidable condition] (type flag : Nat) :
    (if condition then type ||| flag else type) &&& mask ≠ 0 ↔
      type &&& mask ≠ 0 ∨ condition ∧ flag &&& mask ≠ 0 := by
  split
  · rename_i holds
    rw [Nat.and_or_distrib_right, Ne, Nat.or_eq_zero_iff, not_and_or]
    simp [holds]
  · rename_i fails
    simp [fails]

theorem openInfoTurn_and_ne_zero_iff (type : Nat) (entry : OpenProtocolInformationEntry) :
    openInfoTurn controller type entry &&& mask ≠ 0 ↔
      type &&& mask ≠ 0 ∨ (entry.controllerHandle = controller ∧
        entry.attributes &&& openProtocolByChildController = openProtocolByChildController) ∧
          efiHandleTypeParentHandle &&& mask ≠ 0 := by
  rw [openInfoTurn, ← ite_and, ite_or_and_ne_zero_iff]

theorem guidTurn_and_ne_zero_iff (type : Nat) (protocol : EfiGuid) :
    guidTurn guids type protocol &&& mask ≠ 0 ↔
      ((type &&& mask ≠ 0 ∨
        protocol = guids.loadedImageProtocol ∧ efiHandleTypeImageHandle &&& mask ≠ 0) ∨
        protocol = guids.driverBindingProtocol ∧
          efiHandleTypeDriverBindingHandle &&& mask ≠ 0) ∨
        protocol = guids.devicePathProtocol ∧ efiHandleTypeDeviceHandle &&& mask ≠ 0 := by
  simp only [guidTurn, ite_or_and_ne_zero_iff, uefiGuidCompare_eq_zero_iff]

/-- A flag of a handle comes from one of its protocols. -/
theorem handleTypeOf_and_ne_zero_iff (handle : Nat) :
    handleTypeOf guids database controller handle &&& mask ≠ 0 ↔
      ∃ protocol ∈ database.protocols handle,
        ((protocol = guids.loadedImageProtocol ∧ efiHandleTypeImageHandle &&& mask ≠ 0 ∨
          protocol = guids.driverBindingProtocol ∧
            efiHandleTypeDriverBindingHandle &&& mask ≠ 0) ∨
          protocol = guids.devicePathProtocol ∧ efiHandleTypeDeviceHandle &&& mask ≠ 0) ∨
          OpenedByChild database controller handle protocol ∧
            efiHandleTypeParentHandle &&& mask ≠ 0 := by
  have turn : ∀ (type : Nat) (protocol : EfiGuid),
      protocolType guids database controller handle type protocol &&& mask ≠ 0 ↔
        type &&& mask ≠ 0 ∨
          ((protocol = guids.loadedImageProtocol ∧ efiHandleTypeImageHandle &&& mask ≠ 0 ∨
            protocol = guids.driverBindingProtocol ∧
              efiHandleTypeDriverBindingHandle &&& mask ≠ 0) ∨
            protocol = guids.devicePathProtocol ∧ efiHandleTypeDeviceHandle &&& mask ≠ 0) ∨
            OpenedByChild database controller handle protocol ∧
              efiHandleTypeParentHandle &&& mask ≠ 0 := by
    intro type protocol
    have opened := foldl_flag_iff (fun type => type &&& mask ≠ 0)
      (openInfoTurn_and_ne_zero_iff controller mask)
      (database.openInformation handle protocol) (guidTurn guids type protocol)
    rw [protocolType, opened, guidTurn_and_ne_zero_iff, OpenedByChild]
    simp only [or_assoc, exists_and_right, ← and_assoc]
  have flags := foldl_flag_iff (fun type => type &&& mask ≠ 0) turn
    (database.protocols handle) efiHandleTypeUnknown
  rw [handleTypeOf, flags]
  simp [efiHandleTypeUnknown]

variable {guids database controller} {handle : Nat}

theorem handleTypeOf_image_iff :
    handleTypeOf guids database controller handle &&& efiHandleTypeImageHandle ≠ 0 ↔
      guids.loadedImageProtocol ∈ database.protocols handle := by
  rw [handleTypeOf_and_ne_zero_iff]
  simp [efiHandleTypeImageHandle, efiHandleTypeDriverBindingHandle, efiHandleTypeDeviceHandle,
    efiHandleTypeParentHandle]

theorem handleTypeOf_driverBinding_iff :
    handleTypeOf guids database controller handle &&& efiHandleTypeDriverBindingHandle ≠ 0 ↔
      guids.driverBindingProtocol ∈ database.protocols handle := by
  rw [handleTypeOf_and_ne_zero_iff]
  simp [efiHandleTypeImageHandle, efiHandleTypeDriverBindingHandle, efiHandleTypeDeviceHandle,
    efiHandleTypeParentHandle]

theorem handleTypeOf_device_iff :
    handleTypeOf guids database controller handle &&& efiHandleTypeDeviceHandle ≠ 0 ↔
      guids.devicePathProtocol ∈ database.protocols handle := by
  rw [handleTypeOf_and_ne_zero_iff]
  simp [efiHandleTypeImageHandle, efiHandleTypeDriverBindingHandle, efiHandleTypeDeviceHandle,
    efiHandleTypeParentHandle]

theorem handleTypeOf_parent_iff :
    handleTypeOf guids database controller handle &&& efiHandleTypeParentHandle ≠ 0 ↔
      ∃ protocol ∈ database.protocols handle,
        OpenedByChild database controller handle protocol := by
  rw [handleTypeOf_and_ne_zero_iff]
  simp [efiHandleTypeImageHandle, efiHandleTypeDriverBindingHandle, efiHandleTypeDeviceHandle,
    efiHandleTypeParentHandle]

end Types

/-! ## Runs -/

section Runs

variable {fw : HandleFirmware} {guids : ProtocolGuids} {state : IoState}

theorem efierrQuery_run (answers : fw.AnswersAll) (query : HandleQuery) :
    efierrQuery fw query state = .ok ⟨⟩ state := by
  rw [efierrQuery, bind_of_ok (get_run state), answers, if_neg Bool.noConfusion]
  rfl

theorem readIndex_run {array : List Nat} {i value : Nat} (inside : array[i]? = some value) :
    readIndex array i state = .ok value state := by
  rw [readIndex, inside]
  rfl

theorem protocolTurn_run (answers : fw.AnswersAll) (controller handle type : Nat)
    (protocol : EfiGuid) :
    protocolTurn fw guids controller handle type protocol state =
      .ok (protocolType guids state.database controller handle type protocol) state := by
  rw [protocolTurn, bind_of_ok (efierrQuery_run answers _), bind_of_ok (get_run state)]
  rfl

/-- A turn of the enumeration stores the type of its handle. -/
theorem handleTurn_run (answers : fw.AnswersAll) (controller : Nat) {handles types : List Nat}
    {i handle : Nat} (here : handles[i]? = some handle) (inside : i < types.length) :
    handleTurn fw guids controller handles types i state =
      .ok (types.set i (handleTypeOf guids state.database controller handle)) state := by
  have gathered : (state.database.protocols handle).foldlM
      (protocolTurn fw guids controller handle) efiHandleTypeUnknown state =
        .ok (handleTypeOf guids state.database controller handle) state :=
    foldlM_of_ok (fun _ => True) (fun _ _ _ => trivial) trivial
      fun type _ protocol _ => protocolTurn_run answers controller handle type protocol
  rw [handleTurn, bind_of_ok (readIndex_run here), bind_of_ok (efierrQuery_run answers _),
    bind_of_ok (get_run state), bind_of_ok gathered, writeIndex, if_pos inside]
  rfl

theorem getElem?_eq_some_getD {items : List Nat} {i : Nat} (inside : i < items.length) :
    items[i]? = some (items.getD i 0) := by
  rw [List.getElem?_eq_getElem inside, List.getD_eq_getElem _ _ inside]

/-- The values of a list by index are the list. -/
theorem map_range_getD (value : Nat → Nat) (items : List Nat) :
    (List.range items.length).map (fun i => value (items.getD i 0)) = items.map value := by
  apply List.ext_getElem
  · simp
  · intro i inside _
    have bound : i < items.length := by simpa using inside
    simp [bound]

/-- **The enumeration** returns the handles of the database with their types. -/
theorem uefiIoParseHandles_run (answers : fw.AnswersAll) (controller : Nat) :
    uefiIoParseHandles fw guids controller state =
      .ok (state.database.handles,
        state.database.handles.map (handleTypeOf guids state.database controller)) state := by
  set handles := state.database.handles with handlesEq
  set fresh := (List.range handles.length).map (fw.poolContents state.calls) with freshEq
  have size : fresh.length = handles.length := by simp [freshEq]
  have filled : (List.range handles.length).foldlM (handleTurn fw guids controller handles)
      fresh state = .ok (handles.map (handleTypeOf guids state.database controller)) state := by
    have loop : (List.range handles.length).foldlM (handleTurn fw guids controller handles)
        fresh state =
          .ok ((List.range handles.length).foldl (fun types i => types.set i
            (handleTypeOf guids state.database controller (handles.getD i 0))) fresh) state := by
      refine foldlM_of_ok (fun types => types.length = handles.length)
        (fun types i same => by simpa using same) size fun types same i member => ?_
      have bound : i < handles.length := List.mem_range.mp member
      exact handleTurn_run answers controller (getElem?_eq_some_getD bound) (same ▸ bound)
    rw [loop, foldl_set_range _ _ (Nat.le_of_eq size.symm), List.drop_eq_nil_of_le
      (Nat.le_of_eq size), List.append_nil, map_range_getD]
  rw [uefiIoParseHandles, bind_of_ok (efierrQuery_run answers _), bind_of_ok (get_run state),
    bind_of_ok (efierrQuery_run answers _), bind_of_ok filled]
  rfl

/-- The search finds a parent exactly if one of the types has the flag. -/
theorem parentLoop_run (state : IoState) (types : List Nat) :
    ∃ parent, (List.range types.length).foldlM (parentTurn types) false state =
        .ok parent state ∧
      (parent = true ↔ ∃ type ∈ types, type &&& efiHandleTypeParentHandle ≠ 0) := by
  have loop : (List.range types.length).foldlM (parentTurn types) false state =
      .ok ((List.range types.length).foldl (fun parent i =>
        if types.getD i 0 &&& efiHandleTypeParentHandle ≠ 0 then true else parent) false)
        state := by
    refine foldlM_of_ok (fun _ => True) (fun _ _ _ => trivial) trivial
      fun parent _ i member => ?_
    rw [parentTurn,
      bind_of_ok (readIndex_run (getElem?_eq_some_getD (List.mem_range.mp member)))]
    rfl
  have turn : ∀ (parent : Bool) (i : Nat),
      (if types.getD i 0 &&& efiHandleTypeParentHandle ≠ 0 then true else parent) = true ↔
        parent = true ∨ types.getD i 0 &&& efiHandleTypeParentHandle ≠ 0 := by
    intro parent i
    split
    · rename_i flag
      exact iff_of_true rfl (.inr flag)
    · rename_i noFlag
      exact (or_iff_left noFlag).symm
  have found := foldl_flag_iff (fun parent => parent = true) turn (List.range types.length) false
  refine ⟨_, loop, found.trans ?_⟩
  simp only [Bool.false_eq_true, false_or, List.mem_range]
  constructor
  · rintro ⟨i, bound, flag⟩
    refine ⟨types.getD i 0, ?_, flag⟩
    simp [bound]
  · rintro ⟨type, member, flag⟩
    obtain ⟨i, bound, rfl⟩ := List.mem_iff_getElem.mp member
    exact ⟨i, bound, by simpa [bound] using flag⟩

/-- The state after a call of `ConnectController`. -/
def IoState.connected (fw : HandleFirmware) (state : IoState) (handle : Nat) : IoState :=
  ⟨fw.connectController state.calls state.database handle, state.calls ++ [handle]⟩

/-- A handle of a snapshot has its index in every later enumeration. -/
theorem getElem?_of_prefix {snapshot handles : List Nat} {i handle : Nat}
    (aligned : snapshot <+: handles) (here : snapshot[i]? = some handle) :
    handles[i]? = some handle := by
  obtain ⟨inside, rfl⟩ := List.getElem?_eq_some_iff.mp here
  exact List.prefix_iff_getElem?.mp aligned i inside

/-- **A turn** connects its handle if that is due, and does nothing otherwise. -/
theorem reconnectTurn_run (answers : fw.AnswersAll) {snapshot : List Nat} {i handle : Nat}
    (here : snapshot[i]? = some handle) (aligned : snapshot <+: state.database.handles) :
    reconnectTurn fw guids snapshot i state =
      .ok ⟨⟩ (if Due guids state.database handle then state.connected fw handle else state) := by
  have now : (state.database.handles.map (handleTypeOf guids state.database handle))[i]? =
      some (handleTypeOf guids state.database handle handle) := by
    rw [List.getElem?_map, getElem?_of_prefix aligned here, Option.map_some]
  rw [reconnectTurn, bind_of_ok (readIndex_run here),
    bind_of_ok (uefiIoParseHandles_run answers handle)]
  dsimp only
  rw [bind_of_ok (readIndex_run now)]
  split
  · rename_i excluded
    rcases excluded with driver | image
    · rw [if_neg fun due => due.noDriver (handleTypeOf_driverBinding_iff.mp driver)]
      rfl
    · rw [if_neg fun due => due.noImage (handleTypeOf_image_iff.mp image)]
      rfl
  · rename_i admitted
    obtain ⟨noDriver, noImage⟩ := not_or.mp admitted
    rw [handleTypeOf_driverBinding_iff] at noDriver
    rw [handleTypeOf_image_iff] at noImage
    obtain ⟨parent, loop, isParent⟩ := parentLoop_run state
      (state.database.handles.map (handleTypeOf guids state.database handle))
    rw [List.length_map] at loop
    rw [bind_of_ok loop]
    have noParent : parent = false ↔ ∀ other ∈ state.database.handles,
        ∀ protocol ∈ state.database.protocols other,
          ¬ OpenedByChild state.database handle other protocol := by
      rw [← Bool.not_eq_true, isParent]
      simp only [List.mem_map, exists_exists_and_eq_and, handleTypeOf_parent_iff]
      push Not
      rfl
    split
    · rename_i isFree
      rw [bind_of_ok (readIndex_run now)]
      split
      · rename_i device
        rw [handleTypeOf_device_iff] at device
        rw [if_pos ⟨device, noImage, noDriver, noParent.mp isFree⟩]
        rfl
      · rename_i noDevice
        rw [if_neg fun due => noDevice (handleTypeOf_device_iff.mpr due.device)]
        rfl
    · rename_i occupied
      rw [if_neg fun due => occupied (noParent.mpr due.noParent)]
      rfl

variable (fw guids) in
/-- The state before each turn: the handles of the snapshot are connected where they are due. -/
def IoState.beforeTurn (initial : IoState) : Nat → IoState :=
  sweepState (fun state handle => Due guids state.database handle)
    (IoState.connected fw) initial.database.handles initial

/-- **The alignment invariant**: the snapshot is the beginning of every later enumeration. -/
theorem beforeTurn_aligned (initial : IoState) (i : Nat) :
    initial.database.handles <+: (initial.beforeTurn fw guids i).database.handles :=
  sweepState_invariant (fun state : IoState =>
      initial.database.handles <+: state.database.handles)
    List.prefix_rfl (fun state handle aligned =>
      aligned.trans (fw.connectController_grows state.calls state.database handle)) i

/-- The loop goes through the states before its turns. -/
theorem reconnectLoop_run (answers : fw.AnswersAll) (initial : IoState) {n : Nat}
    (inside : n ≤ initial.database.handles.length) :
    repeatTimes (reconnectTurn fw guids initial.database.handles) n initial =
      .ok ⟨⟩ (initial.beforeTurn fw guids n) := by
  induction n with
  | zero => rfl
  | succ n ih =>
      have here := List.getElem?_eq_getElem (l := initial.database.handles) inside
      rw [repeatTimes, bind_of_ok (ih (Nat.le_of_succ_le inside)),
        reconnectTurn_run answers here (beforeTurn_aligned initial n), IoState.beforeTurn,
        sweepState_succ _ _ _ here]

/-- What a run over a snapshot did: the state before each of its turns, the state that each
turn leaves, and the calls of `ConnectController` it made. -/
structure Reconnection (fw : HandleFirmware) (guids : ProtocolGuids) (initial final : IoState)
    (turn : Nat → IoState) : Prop where
  first : turn 0 = initial
  last : turn initial.database.handles.length = final
  /-- A handle that is due at its turn is connected then. -/
  due : ∀ i handle, initial.database.handles[i]? = some handle →
    Due guids (turn i).database handle → turn (i + 1) = (turn i).connected fw handle
  /-- At the turn of any other handle nothing happens. -/
  rest : ∀ i handle, initial.database.handles[i]? = some handle →
    ¬ Due guids (turn i).database handle → turn (i + 1) = turn i
  /-- The calls are in the order of the snapshot. -/
  ordered : final.calls.Sublist initial.database.handles
  /-- No handle is connected twice. -/
  once : final.calls.Nodup
  /-- The calls are for exactly the handles of the snapshot that were due at their turn. -/
  exactly : ∀ handle, handle ∈ final.calls ↔ ∃ i, initial.database.handles[i]? = some handle ∧
    Due guids (turn i).database handle

/-- **The loader connects the controllers that are due**: whatever the handle database and
whatever connecting a controller does to it, the run over the snapshot returns, so that every
access to an array of types is inside it, and it calls `ConnectController` for exactly the
handles that are due at their turn, once each and in the order of the snapshot. -/
theorem uefiIoReconnect_spec (answers : fw.AnswersAll) (initial : IoState)
    (noCalls : initial.calls = []) :
    ∃ final turn, uefiIoReconnect fw guids initial = .ok ⟨⟩ final ∧
      Reconnection fw guids initial final turn := by
  set snapshot := initial.database.handles with snapshotEq
  have logged : ∀ (state : IoState) (handle : Nat),
      (state.connected fw handle).calls = state.calls ++ [handle] := fun _ _ => rfl
  have ordered : (initial.beforeTurn fw guids snapshot.length).calls.Sublist snapshot := by
    have sub : (initial.beforeTurn fw guids snapshot.length).calls.Sublist
        (snapshot.take snapshot.length) :=
      log_sweepState_sublist logged noCalls (Nat.le_refl snapshot.length)
    rwa [List.take_length] at sub
  refine ⟨initial.beforeTurn fw guids snapshot.length, initial.beforeTurn fw guids, ?_, ?_⟩
  · rw [uefiIoReconnect, bind_of_ok (efierrQuery_run answers _), bind_of_ok (get_run initial)]
    exact reconnectLoop_run answers initial (Nat.le_refl _)
  · exact {
      first := rfl
      last := rfl
      due := fun i handle here isDue => by
        rw [IoState.beforeTurn, sweepState_succ _ _ _ here]
        exact if_pos isDue
      rest := fun i handle here notDue => by
        rw [IoState.beforeTurn, sweepState_succ _ _ _ here]
        exact if_neg notDue
      ordered := ordered
      once := initial.database.nodup.sublist ordered
      exactly := fun handle => by
        have turns : ∀ i, snapshot[i]? = some handle →
            (handle ∈ (initial.beforeTurn fw guids snapshot.length).calls ↔
              Due guids (initial.beforeTurn fw guids i).database handle) := fun i here =>
          mem_log_sweepState logged noCalls initial.database.nodup here
            (List.getElem?_eq_some_iff.mp here).1 (Nat.le_refl _)
        constructor
        · intro called
          obtain ⟨i, here⟩ := List.mem_iff_getElem?.mp (ordered.subset called)
          exact ⟨i, here, (turns i here).mp called⟩
        · rintro ⟨i, here, isDue⟩
          exact (turns i here).mpr isDue }

end Runs

/-- Connecting the first controller starts a bus: a handle appears that is opened for a child of
the third. -/
def busStarts (database : HandleDatabase) (handle : Nat) : HandleDatabase :=
  if fresh : handle = 1 ∧ 4 ∉ database.handles then
    { handles := database.handles ++ [4]
      nodup := List.nodup_append.mpr ⟨database.nodup, List.nodup_singleton 4,
        fun other member four isFour same => by
          obtain rfl := List.mem_singleton.mp isFour
          exact fresh.2 (same ▸ member)⟩
      protocols := database.protocols
      openInformation := fun _ _ => [⟨3, 0x08⟩] }
  else database

/-- A firmware that answers every query. -/
def busFirmware : HandleFirmware where
  answers _ _ := true
  poolContents _ _ := 0xAF
  connectController _ := busStarts
  connectController_grows _ database handle := by
    rw [busStarts]
    split
    · exact List.prefix_append _ _
    · exact List.prefix_rfl

def sampleGuids : ProtocolGuids where
  loadedImageProtocol := ⟨0x5B1B31A1, 0x9562, 0x11D2, 0x3B7269C9A0003F8E⟩
  driverBindingProtocol := ⟨0x18A031AB, 0xB443, 0x4D1A, 0x719F1E26090CC0A5⟩
  devicePathProtocol := ⟨0x09576E91, 0x6D3F, 0x11D2, 0x3B7269C9A000398E⟩

/-- Two controllers, and an image between them. -/
def sampleHandles : IoState where
  database :=
    { handles := [1, 2, 3]
      nodup := by decide
      protocols := fun handle =>
        if handle = 2 then [sampleGuids.loadedImageProtocol]
        else [sampleGuids.devicePathProtocol]
      openInformation := fun _ _ => [] }
  calls := []

/-- The second controller has a child by the time of its turn. -/
theorem uefiIoReconnect_sample :
    (∃ final turn, uefiIoReconnect busFirmware sampleGuids sampleHandles = .ok ⟨⟩ final ∧
      Reconnection busFirmware sampleGuids sampleHandles final turn) ∧
      (finalState (uefiIoReconnect busFirmware sampleGuids sampleHandles)).calls = [1] :=
  ⟨uefiIoReconnect_spec (fun _ _ => rfl) sampleHandles rfl, by decide +kernel⟩

end VineyardLoader
