import VineyardLoader.Foundation.Memory
import VineyardLoader.Foundation.Bits
import VineyardLoader.Foundation.LinkedTables
import VineyardLoader.Foundation.Effects
import VineyardLoader.Foundation.Chunks
import VineyardLoader.Foundation.OnesComplement
import VineyardLoader.Foundation.FreeLists
import VineyardLoader.Foundation.Numerals
import VineyardLoader.Foundation.Walks
import VineyardLoader.Foundation.Records
import VineyardLoader.Foundation.Scans
import VineyardLoader.Foundation.Picks
import VineyardLoader.Foundation.Sweeps
import VineyardLoader.Foundation.Footprints
import VineyardLoader.Foundation.Odometers
import VineyardLoader.Uefi.Machine
import VineyardLoader.Uefi.Platform
import VineyardLoader.Uefi.Text
import VineyardLoader.Uefi.Heap
import VineyardLoader.Uefi.DevicePath
import VineyardLoader.Uefi.Append
import VineyardLoader.Uefi.Validity
import VineyardLoader.Uefi.FilePath
import VineyardLoader.Uefi.Reconnect
import VineyardLoader.Loader.Paging
import VineyardLoader.Loader.PageTree
import VineyardLoader.Loader.AddressSpace
import VineyardLoader.Loader.Elf
import VineyardLoader.Loader.Phdrs
import VineyardLoader.Loader.Segments
import VineyardLoader.Loader.Image
import VineyardLoader.Loader.Framebuffer
import VineyardLoader.Loader.Kernel
import VineyardLoader.Loader.Stages
import VineyardLoader.Loader.HandOff
import VineyardLoader.Loader.Header
import VineyardLoader.Loader.Truncation
import VineyardLoader.Loader.Ranges
import VineyardLoader.Loader.Indices
import VineyardLoader.Loader.Arrangement
import VineyardLoader.Loader.Entry
import VineyardLoader.Loader.Identity
import VineyardLoader.Loader.Table
import VineyardLoader.Loader.Writes
import VineyardLoader.Loader.Modes
import VineyardLoader.Net.State
import VineyardLoader.Net.Send
import VineyardLoader.Net.Netboot
import VineyardLoader.Net.Receive
import VineyardLoader.Net.Steps
import VineyardLoader.Net.Invariants
import VineyardLoader.Net.Safety
import VineyardLoader.Net.Paths
import VineyardLoader.Net.Ucs2
import VineyardLoader.Net.Calls
import VineyardLoader.Net.Transfer
import VineyardLoader.Net.Acks
import VineyardLoader.Net.Volume
import VineyardLoader.Net.Bounds
import VineyardLoader.Net.Checksum
import VineyardLoader.Net.Frames
import VineyardLoader.Net.Datagrams
import VineyardLoader.Net.Replies
import VineyardLoader.Net.Poll
import VineyardLoader.Net.Pool
import VineyardLoader.Net.Recovery
import VineyardLoader.Net.Selection
import VineyardLoader.Net.Addresses
import VineyardLoader.Lib.Strings
import VineyardLoader.Lib.Vcbprintf
import VineyardLoader.Lib.Format
import VineyardLoader.Lib.Runs
import VineyardLoader.Lib.Integers
import VineyardLoader.Lib.Arrays
import VineyardLoader.Lib.Counting
import VineyardLoader.Lib.Grammar
import VineyardLoader.Lib.Unknown
import VineyardLoader.Lib.Fields
import VineyardLoader.Lib.IsoC
import VineyardLoader.Lib.Digits
import VineyardLoader.Foundation.Traces
import VineyardLoader.Foundation.Subsequences
import VineyardLoader.Net.Wire
import VineyardLoader.Net.Turns
import VineyardLoader.Net.Loop
import VineyardLoader.Net.Delivery
import VineyardLoader.Net.Sends
import VineyardLoader.Net.Emissions
import VineyardLoader.Net.Restraint
import VineyardLoader.Net.Containment
import VineyardLoader.Loader.KernelImage
import VineyardLoader.Net.Opening
import VineyardLoader.Foundation.Assembly
import VineyardLoader.Loader.Stubs
import VineyardLoader.Loader.Main
import VineyardLoader.Foundation.Contracts
import VineyardLoader.Loader.Confinement
import VineyardLoader.Loader.SelfMap
import VineyardLoader.Uefi.Console
import VineyardLoader.Loader.Grants
import VineyardLoader.Loader.Accounts
import VineyardLoader.Lib.Copies
import VineyardLoader.Net.Ledger
