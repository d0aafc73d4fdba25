import HevFsh.SearchTree
import HevFsh.Transitions
import HevFsh.Protocol
import HevFsh.SessionManager
import HevFsh.TokenManager
import HevFsh.SessionTask
import HevFsh.SessionMoves
import HevFsh.Registry
import HevFsh.Descriptors
import HevFsh.Forwarders
import HevFsh.SessionEvents
import HevFsh.Splice
import HevFsh.AllowList
import HevFsh.Isolation
import HevFsh.Logins
import HevFsh.Pairing
import HevFsh.ForwardReader
import HevFsh.Framing
import HevFsh.ForwardDescriptor
import HevFsh.ForwardLogin
import HevFsh.CText
import HevFsh.Failures
import HevFsh.Sockets
import HevFsh.TokenText
import HevFsh.TokenFile
import HevFsh.EventTask
import HevFsh.BoundedQueue
import HevFsh.TaskIoSplice
import HevFsh.TermConnect
import HevFsh.HostOrder
import HevFsh.Inet
import HevFsh.WireFormat
import HevFsh.Config
import HevFsh.CommandLine
import HevFsh.AddrList
import HevFsh.PortPolicy
import HevFsh.PortTarget
import HevFsh.CursorScan
import HevFsh.AddrScanner
import HevFsh.AddrText
import HevFsh.PairText
import HevFsh.PortNumbers
import HevFsh.OptionScan
import HevFsh.Getopt
import HevFsh.ParseArgs
import HevFsh.CommandForms
import HevFsh.BridgeWriter
import HevFsh.BridgeOwner
import HevFsh.SessionMultiset
import HevFsh.LineSplit
import HevFsh.CompatGetline
import HevFsh.RandomBytes
import HevFsh.Drain
import HevFsh.Conversation
import HevFsh.Streams
import HevFsh.Custody
import HevFsh.ClientTask
import HevFsh.ClientDescriptors
import HevFsh.ClientStream
import HevFsh.ClientRouting
import HevFsh.EndToEnd
import HevFsh.Scripts
import HevFsh.ScriptRules
import HevFsh.ConsoleAccept
import HevFsh.Announcements
import HevFsh.Launch
import HevFsh.BridgeReader
import HevFsh.ForwardRecovery
import HevFsh.ConsoleDrain
