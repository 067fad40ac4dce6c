import PaldOs.LinkedList
import PaldOs.Table
import PaldOs.Runs
import PaldOs.Kernel
import PaldOs.LockExclusion
import PaldOs.Semaphores
import PaldOs.Lifetimes
import PaldOs.Inheritance
import PaldOs.SystemCalls
import PaldOs.ChannelWakeup
import PaldOs.PagingTransparency
import PaldOs.RoundTrip
import PaldOs.SectorOwnership
import PaldOs.Durability
import PaldOs.Conditions
import PaldOs.SynchDisk
import PaldOs.Interrupts
import PaldOs.SharedCursor
import PaldOs.Visibility
import PaldOs.RefusedWrite
import PaldOs.UserMemory
import PaldOs.ReadCall
import PaldOs.HandleCounts
import PaldOs.PathBuffers
import PaldOs.PathResolution
import PaldOs.ThreadFiles
import PaldOs.Scheduling
import PaldOs.PageBounds
import PaldOs.EagerLoading
import PaldOs.LeastRecent
import PaldOs.ArgumentPassing
import PaldOs.Freeing
import PaldOs.Checker
import PaldOs.SectorArrays
import PaldOs.EntryTypes
import PaldOs.Listing
import PaldOs.Shell
import PaldOs.CopyFile
import PaldOs.FlatVolumes
import PaldOs.Words
import PaldOs.InstructionSet
import PaldOs.Twins
import PaldOs.Formatting
import PaldOs.AbsolutePaths
import PaldOs.ListSequences
import PaldOs.IndexSets
import PaldOs.SectorAllocation
import PaldOs.MemoryImage
import PaldOs.LinkedPrograms
import PaldOs.Primitives
import PaldOs.Clients
import PaldOs.Devices
import PaldOs.SynchConsole
import PaldOs.Packets
import PaldOs.PostOffice
import PaldOs.MailDelivery
import PaldOs.Processor
import PaldOs.UserPrograms
import PaldOs.PrivateMachines
import PaldOs.CoffReader
import PaldOs.CompiledPrograms
import PaldOs.Joining
import PaldOs.Architecture
import PaldOs.ArchitecturePrograms
import PaldOs.DiskTiming
