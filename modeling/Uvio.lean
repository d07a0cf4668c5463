import Uvio.Program.Stateful
import Uvio.Program.Search
import Uvio.Program.Octets
import Uvio.Program.Varint
import Uvio.Program.Groups
import Uvio.Program.HashMultimap
import Uvio.Program.Runs
import Uvio.Program.Columns
import Uvio.Program.Cursor
import Uvio.Program.Awaitable
import Uvio.Program.Ownership
import Uvio.Program.Bisimulation
import Uvio.Program.Pieces
import Uvio.Common.Machine
import Uvio.Common.Result
import Uvio.Common.Base64
import Uvio.Common.Base64Loops
import Uvio.Io.Buffer
import Uvio.Io.Endpoint
import Uvio.Io.BufReader
import Uvio.Io.BufWriter
import Uvio.Io.Sessions
import Uvio.Io.Schedules
import Uvio.Io.AnySource
import Uvio.Io.Refills
import Uvio.Io.Gather
import Uvio.Io.Outcomes
import Uvio.Io.FlagSearch
import Uvio.Io.Records
import Uvio.Io.AnyWriter
import Uvio.Io.Fetching
import Uvio.Net.Endian
import Uvio.Codec.LengthVarint
import Uvio.Codec.CrossHost
import Uvio.Codec.HttpBody
import Uvio.Codec.HttpChunks
import Uvio.Codec.StartLine
import Uvio.Codec.HttpMessage
import Uvio.Codec.HeaderLines
import Uvio.Codec.Watched
import Uvio.Codec.WebsocketErrors
import Uvio.Codec.Exceptions
import Uvio.Codec.WriteErrors
import Uvio.Codec.HttpCuts
import Uvio.Codec.Ends
import Uvio.Codec.Conversation
import Uvio.Net.Http.HttpServer
import Uvio.Net.Http.HashedHeader
import Uvio.Net.Http.Serving
import Uvio.Net.Websocket.Handshake
import Uvio.Net.Websocket.CloseFrames
import Uvio.Net.Websocket.Messages
import Uvio.Net.Websocket.Upgrade
import Uvio.Net.TcpListener
import Uvio.Net.AcceptLoop
import Uvio.Net.EventLoop
import Uvio.Net.TcpRead
import Uvio.Net.TcpInlet
import Uvio.Net.TcpOwnership
import Uvio.Socks5.Framed
import Uvio.Socks5.Requests
import Uvio.Socks5.Exchange
import Uvio.Socks5.Relay
import Uvio.Socks5.Handover
import Uvio.Coroutine.Task
import Uvio.Coroutine.TaskOwnership
import Uvio.Coroutine.Frames
import Uvio.Coroutine.Calls
import Uvio.Coroutine.Adequacy
import Uvio.Sync.Latch
import Uvio.Sync.LatchThreads
import Uvio.Sync.LatchFrames
import Uvio.Completions
import Uvio.Channel
import Uvio.Log
