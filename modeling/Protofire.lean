import Protofire.BlockCache.Durability
import Protofire.BlockCache.ReadAhead
import Protofire.BlockCache.Race
import Protofire.SimpleFs.Xattrs
import Protofire.Fs.Mediation
import Protofire.Ntfs.Clusters
import Protofire.Ntfs.MappingPairs
import Protofire.Ntfs.RoundTrip
import Protofire.Tlsf.Merging
import Protofire.Tlsf.Completeness
import Protofire.Memory.Frame
import Protofire.Memory.Relocate
import Protofire.Process.Order
import Protofire.Process.Fork
import Protofire.Process.Seccomp
import Protofire.Process.Condvar
import Protofire.Process.MessageQueue
import Protofire.Process.Loader
import Protofire.Ipc.Pipe
import Protofire.Network.Filter
import Protofire.Network.Ipsec
import Protofire.Network.NaptRuns
import Protofire.Network.Reassembly
import Protofire.Network.TcpPorts
import Protofire.Network.TcpSend
