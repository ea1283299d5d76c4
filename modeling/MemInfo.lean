import MemInfo.Common.Crc32c
import MemInfo.Common.Crc32cPaths
import MemInfo.Common.Frames
import MemInfo.Common.Messages
import MemInfo.Common.Types
import MemInfo.Discoveryd.PeerTable
import MemInfo.Gpud.GpuClient
import MemInfo.Gpud.GpuProtocol
import MemInfo.Gpud.GpuSession
import MemInfo.Hook.Launch
import MemInfo.Hook.MallocHook
import MemInfo.Hook.ProcessBlocks
import MemInfo.Hook.Transparency
import MemInfo.Lib.Blocks
import MemInfo.Lib.CommandLine
import MemInfo.Lib.Dict
import MemInfo.Lib.Duplex
import MemInfo.Lib.Framing
import MemInfo.Lib.Interleave
import MemInfo.Lib.LittleEndian
import MemInfo.Lib.OrdMap
import MemInfo.Lib.Paging
import MemInfo.Lib.Prog
import MemInfo.Lib.ReflectedCrc
import MemInfo.Lib.Run
import MemInfo.Lib.Script
import MemInfo.Lib.Threads
import MemInfo.Lib.Tiling
import MemInfo.Lib.Window
import MemInfo.Memclient.AllocateRemote
import MemInfo.Memclient.Calls
import MemInfo.Memclient.ClientApi
import MemInfo.Memclient.Custody
import MemInfo.Memclient.Effects
import MemInfo.Memclient.EmptyRanges
import MemInfo.Memclient.Exclusivity
import MemInfo.Memclient.FlatMemory
import MemInfo.Memclient.Footprint
import MemInfo.Memclient.FrameLimits
import MemInfo.Memclient.HeapArena
import MemInfo.Memclient.HeapArenaFit
import MemInfo.Memclient.HeapArenaInvariant
import MemInfo.Memclient.HeapBookkeeping
import MemInfo.Memclient.HeapBudget
import MemInfo.Memclient.HeapCoherence
import MemInfo.Memclient.HeapOnLinux
import MemInfo.Memclient.HeapProtocol
import MemInfo.Memclient.HeapRaces
import MemInfo.Memclient.HeapSizing
import MemInfo.Memclient.Hosts
import MemInfo.Memclient.LoadFailure
import MemInfo.Memclient.LruCache
import MemInfo.Memclient.LruCacheInvariant
import MemInfo.Memclient.LruCacheRuns
import MemInfo.Memclient.Network
import MemInfo.Memclient.Operations
import MemInfo.Memclient.Peers
import MemInfo.Memclient.Placement
import MemInfo.Memclient.Pressure
import MemInfo.Memclient.Provenance
import MemInfo.Memclient.ReadValidation
import MemInfo.Memclient.Reconnect
import MemInfo.Memclient.Refinement
import MemInfo.Memclient.RemoteHeap
import MemInfo.Memclient.Representation
import MemInfo.Memclient.RequestIsolation
import MemInfo.Memclient.Requests
import MemInfo.Memclient.Reservations
import MemInfo.Memclient.Residency
import MemInfo.Memclient.Restarts
import MemInfo.Memclient.Sections
import MemInfo.Memclient.StripedAccess
import MemInfo.Memclient.Upkeep
import MemInfo.Memclient.World
import MemInfo.Memclient.WriteBack
import MemInfo.Memoryd.Accounting
import MemInfo.Memoryd.ByteMap
import MemInfo.Memoryd.Capacity
import MemInfo.Memoryd.ClientSession
import MemInfo.Memoryd.Control
import MemInfo.Memoryd.CriticalSections
import MemInfo.Memoryd.HandleRaces
import MemInfo.Memoryd.Invariant
import MemInfo.Memoryd.Isolation
import MemInfo.Memoryd.MemoryDaemon
import MemInfo.Memoryd.PageTracker
import MemInfo.Memoryd.Protocol
import MemInfo.Memoryd.Refinement
import MemInfo.Memoryd.Server
import MemInfo.Memoryd.SlabAllocator
import MemInfo.Memoryd.View
import MemInfo.Platform.LocalIpc
import MemInfo.Platform.PageFaultBackend
import MemInfo.Platform.PageFaultLinux
import MemInfo.Platform.PageFaultWin
import MemInfo.Platform.PageRegions
import MemInfo.WindowsLanSharing.CudaProxy
import MemInfo.WindowsLanSharing.GpuServer
import MemInfo.WindowsLanSharing.GpuWireProtocol
import MemInfo.Platform.WriteTracking
import MemInfo.Platform.Residency
import MemInfo.Platform.LinuxTracking
import MemInfo.Platform.ResidencyRuns
import MemInfo.WindowsLanSharing.DevicePointers
import MemInfo.WindowsLanSharing.PagingServer
import MemInfo.WindowsLanSharing.TcpPageFaultBackend
import MemInfo.Lib.Broadcast
import MemInfo.Discoveryd.Announcements
import MemInfo.Discoveryd.ControlSocket
import MemInfo.Discoveryd.PoolProbe
import MemInfo.Discoveryd.DiscoveryDaemon
import MemInfo.Discoveryd.Cluster
import MemInfo.Discoveryd.Membership
import MemInfo.Discoveryd.Capacities
import MemInfo.Discoveryd.FailureDetection
import MemInfo.Memclient.Discovery
import MemInfo.Memclient.PeerRegistry
import MemInfo.Hook.Initialization
