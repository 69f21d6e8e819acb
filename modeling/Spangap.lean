import Spangap.PickupWait
import Spangap.Browser
import Spangap.RootFile
import Spangap.Durable
import Spangap.StoreRoundTrip
import Spangap.Saves
import Spangap.Detach
import Spangap.AtomicWrite
import Spangap.RemoveTree
import Spangap.Retry
import Spangap.StopFlush
import Spangap.DumpOrder
import Spangap.Mirror
import Spangap.ResolvePath
import Spangap.RunFile
import Spangap.Sniffer
import Spangap.LoginGate
import Spangap.Conservation
import Spangap.DisconnectRuns
import Spangap.SessionRuns
import Spangap.HandshakeRuns
import Spangap.PacketLink
import Spangap.RpcProgress
import Spangap.Logins
import Spangap.CronRuns
import Spangap.Extraction
import Spangap.RoundTrip
import Spangap.SpanfsPack
import Spangap.LogDrain
import Spangap.DeleteTree
import Spangap.TextWrites
import Spangap.Backpressure
import Spangap.PollWake
import Spangap.BufferSlots
import Spangap.PortLimit
import Spangap.Notify
import Spangap.CappedStore
import Spangap.Backoff
import Spangap.CronStream
import Spangap.CommandLine
import Spangap.LegacyPackets
import Spangap.Sampler
import Spangap.Averages
import Spangap.Boost
import Spangap.InboundLines
import Spangap.LogStream
import Spangap.Subscriptions
import Spangap.OpLists
import Spangap.Routing
import Spangap.TypeInference
import Spangap.Partitions
import Spangap.SendDrain
