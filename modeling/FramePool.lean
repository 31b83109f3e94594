import FramePool.Address.Physical
import FramePool.Address.Virtual
import FramePool.Block
import FramePool.BootMap
import FramePool.Descriptor
import FramePool.DirectMap
import FramePool.Fault
import FramePool.Frame
import FramePool.FreeList
import FramePool.Machine
import FramePool.Memory
import FramePool.Page
import FramePool.Platform
import FramePool.Pool.Basic
import FramePool.Pool.Check
import FramePool.Pool.Coalesce
import FramePool.Pool.Reference
import FramePool.Pool.Release
import FramePool.Pool.Stats
import FramePool.Proofs.Check
import FramePool.Proofs.Coalesce
import FramePool.Proofs.Confluence
import FramePool.Proofs.Exclusivity
import FramePool.Proofs.Exhaustion
import FramePool.Proofs.Extent
import FramePool.Proofs.FreeList
import FramePool.Proofs.Invariant
import FramePool.Proofs.Layout
import FramePool.Proofs.Ledger
import FramePool.Proofs.Lending
import FramePool.Proofs.ListInvariant
import FramePool.Proofs.Maximal
import FramePool.Proofs.Merging
import FramePool.Proofs.Outcome
import FramePool.Proofs.Release
import FramePool.Proofs.Run
import FramePool.Proofs.Threads
import FramePool.Proofs.Tiling
import FramePool.Shared
import FramePool.Table
import FramePool.Text.Hex
import FramePool.Text.Size
import FramePool.Trace
import FramePool.Word
import FramePool.Proofs.Conservation
import FramePool.Proofs.References
import FramePool.Proofs.Events
import FramePool.Proofs.Progress
import FramePool.Proofs.RoundTrip
import FramePool.Proofs.Handles
import FramePool.Proofs.Addressability
import FramePool.Proofs.Boot
import FramePool.Proofs.Isolation
import FramePool.Proofs.Checker
import FramePool.Proofs.Allocation
import FramePool.Proofs.Overlap
import FramePool.Proofs.Observation
import FramePool.Proofs.Handover
import FramePool.Proofs.DoubleRelease
import FramePool.Proofs.Draining
import FramePool.Proofs.BootMap
import FramePool.Proofs.UsableFrames
import FramePool.Proofs.DirectMap
import FramePool.Proofs.ListFamily
import FramePool.Proofs.AddressText
import FramePool.Proofs.Search
import FramePool.Proofs.SizeText
import FramePool.Proofs.Sharing
import FramePool.Proofs.Halves
import FramePool.Proofs.MaximalRuns
