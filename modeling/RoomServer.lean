import RoomServer.Library.Transition
import RoomServer.Library.Framing
import RoomServer.PacketStruct
import RoomServer.RecvBuffer
import RoomServer.Receive
import RoomServer.Segmentation
import RoomServer.SessionReuse
import RoomServer.ReceiveRounds
import RoomServer.Oversized
import RoomServer.Library.Threads
import RoomServer.SendProtocol
import RoomServer.SendGuarantees
import RoomServer.Library.OrderedMap
import RoomServer.Room
import RoomServer.PacketHandler
import RoomServer.RoomMembers
import RoomServer.RoomIDs
import RoomServer.OneRoom
import RoomServer.Library.Replay
import RoomServer.RoomViews
import RoomServer.RoomWide
import RoomServer.RoomPositions
import RoomServer.Hall
import RoomServer.HallMembers
import RoomServer.HallClosed
import RoomServer.Broadcasts
import RoomServer.Pipelining
import RoomServer.ObjectPool
import RoomServer.ObjectPoolRuns
import RoomServer.Server
import RoomServer.ServerFields
import RoomServer.ServerLedger
import RoomServer.ServerCover
import RoomServer.ServerNext
import RoomServer.ServerAdvance
import RoomServer.ServerInvariant
import RoomServer.Recycling
import RoomServer.Crossing
import RoomServer.SocketNumbers
import RoomServer.Registered
import RoomServer.Leaving
import RoomServer.Orphans
import RoomServer.RoomSockets
import RoomServer.SendRefinement
import RoomServer.Library.Broadcast
import RoomServer.Journal
import RoomServer.JournalThreads
import RoomServer.Deliveries
import RoomServer.TotalOrder
import RoomServer.Movement
import RoomServer.MovementRuns
import RoomServer.SpawnPositions
import RoomServer.Library.Plane
import RoomServer.Speed
import RoomServer.Library.Rounding
import RoomServer.ArrivalTick
import RoomServer.AcceptWaits
import RoomServer.AcceptSlots
import RoomServer.RoomThread
import RoomServer.RoomsJoin
import RoomServer.Library.Memory
import RoomServer.Library.LittleEndian
import RoomServer.SendBuffer
import RoomServer.SendChunks
import RoomServer.Wire
import RoomServer.MoveReports
import RoomServer.ParseClient
import RoomServer.EchoSession
import RoomServer.EchoInvariant
import RoomServer.Echo
import RoomServer.Conservation
import RoomServer.AcceptDrain
import RoomServer.Library.WorkerPool
import RoomServer.Library.Descent
import RoomServer.Settling
import RoomServer.Process
import RoomServer.ProcessInvariant
import RoomServer.ProcessMonitor
import RoomServer.Shutdown
import RoomServer.AfterShutdown
import RoomServer.EchoLoop
import RoomServer.MemberLog
import RoomServer.ClientRoom
import RoomServer.ClientPositions
import RoomServer.DeliveryRate
import RoomServer.IDTurns
import RoomServer.Library.Binary32
import RoomServer.Library.Pacing
import RoomServer.Rates
import RoomServer.Requests
import RoomServer.SendPool
