import Dmanix.Lib.Word32
import Dmanix.Lib.Bytes
import Dmanix.Lib.Tiling
import Dmanix.Lib.Run
import Dmanix.Lib.Slots
import Dmanix.Lib.Scan
import Dmanix.Lib.Checked
import Dmanix.Lib.Keyed
import Dmanix.Lib.X86
import Dmanix.Lib.X86Stack
import Dmanix.Lib.Pic8259
import Dmanix.Base.Assert
import Dmanix.OrderedArray
import Dmanix.Bitset
import Dmanix.Vector
import Dmanix.CString
import Dmanix.Syscall
import Dmanix.DescriptorTables
import Dmanix.Interrupt.Stubs
import Dmanix.Interrupt.Gates
import Dmanix.Interrupt.Isr
import Dmanix.Memory.Paging
import Dmanix.Memory.Heap
import Dmanix.Memory.Limits
import Dmanix.Memory.Clients
import Dmanix.Memory.Proof.Frames
import Dmanix.Memory.Proof.Tags
import Dmanix.Memory.Proof.Layout
import Dmanix.Memory.Proof.Search
import Dmanix.Memory.Proof.Carve
import Dmanix.Memory.Proof.Grow
import Dmanix.Memory.Proof.Alloc
import Dmanix.Memory.Proof.Stages
import Dmanix.Memory.Proof.Ghosts
import Dmanix.Process.ElfTables
import Dmanix.Process.Proof.TableRead
import Dmanix.Screen
import Dmanix.Line
import Dmanix.Printf
import Dmanix.Process.Proof.Resume
import Dmanix.Process.Arguments
import Dmanix.Process.MoveStack
import Dmanix.Process.Symbols
import Dmanix.Process.CopyPage
import Dmanix.Process.Mode
import Dmanix.Fs.Proof.RoundTrip
import Dmanix.Memory.Proof.Shared
import Dmanix.Memory.Proof.Stacks
import Dmanix.Memory.Proof.Bump
import Dmanix.Memory.Proof.IdentityMapped
import Dmanix.Memory.Proof.Collision
import Dmanix.Memory.Proof.FromHole
import Dmanix.Memory.Proof.Contract
import Dmanix.Memory.Proof.Freed
import Dmanix.Memory.Proof.Walk
import Dmanix.Memory.Proof.Clients
import Dmanix.Memory.Proof.Stored
import Dmanix.Memory.Proof.Served
import Dmanix.Memory.Proof.Inside
import Dmanix.Memory.Proof.MappedTo
import Dmanix.Memory.Proof.BestFit
import Dmanix.Memory.Proof.Growth
import Dmanix.Memory.Proof.Present
import Dmanix.Memory.Proof.Rights
import Dmanix.Fs.Proof.Read
import Dmanix.Fs.Proof.Traverse
import Dmanix.Memory.Proof.Housed
import Dmanix.Memory.Proof.HousedCalls
import Dmanix.Memory.Proof.Runs
import Dmanix.Memory.Proof.FirstPage
import Dmanix.Memory.Proof.Again
import Dmanix.Memory.Proof.Merge
import Dmanix.Memory.Proof.Destroyed
import Dmanix.Memory.Proof.Range
import Dmanix.Process.Proof.StackMoved
import Dmanix.Memory.Proof.Physical
import Dmanix.Memory.Proof.Copy
import Dmanix.Process.Proof.Image
import Dmanix.Process.Proof.Misread
