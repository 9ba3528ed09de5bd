import LuaFan.Lib.Tape
import LuaFan.Lib.Utf8
import LuaFan.Fan.Sanitize
import LuaFan.Fan.Hex
import LuaFan.Stream.Bytearray
import LuaFan.Stream.Ffi
import LuaFan.Fan.Fifo
import LuaFan.Stream.ByteFifo
import LuaFan.Stream.Frame
import LuaFan.Stream.Typed
import LuaFan.Stream.Bounds
import LuaFan.Stream.Retry
import LuaFan.Connector.Tcp
import LuaFan.Lib.Binary64
import LuaFan.Lib.Numeral
import LuaFan.Lib.JsonText
import LuaFan.Lib.JsonTree
import LuaFan.Lib.Decimal
import LuaFan.Lib.JsonString
import LuaFan.Lua.Value
import LuaFan.Lua.Table
import LuaFan.Json.Encode
import LuaFan.Json.Decode
import LuaFan.Json.Grammar
import LuaFan.Json.Literal
import LuaFan.Json.Reading
import LuaFan.Json.RoundTrip
import LuaFan.Json.Dense
import LuaFan.Lib.Descent
import LuaFan.Json.Cycles
import LuaFan.Json.Tree
import LuaFan.Json.Spelled
import LuaFan.Json.Reencode
import LuaFan.Json.Integers
import LuaFan.Httpd.Readline
import LuaFan.Httpd.Head
import LuaFan.Httpd.Accept
import LuaFan.Lib.Settle
import LuaFan.Httpd.Chunking
import LuaFan.Httpd.Loop
import LuaFan.Lib.Visit
import LuaFan.Objectbuf.Packer
import LuaFan.Objectbuf.Decode
import LuaFan.Lib.Timed
import LuaFan.Objectbuf.Received
import LuaFan.Objectbuf.Loops
import LuaFan.Objectbuf.Graph
import LuaFan.Objectbuf.Rebuilt
import LuaFan.Objectbuf.RoundTrip
import LuaFan.Objectbuf.Unsupported
import LuaFan.Objectbuf.Enumeration
import LuaFan.Objectbuf.Truncated
import LuaFan.Objectbuf.Symbol
import LuaFan.Objectbuf.Indices
import LuaFan.Orm.Insert
import LuaFan.Orm.Update
import LuaFan.Lib.Lending
import LuaFan.Lib.Machine
import LuaFan.Pool.Desk
import LuaFan.Pool.FanPool
import LuaFan.Pool.MariadbPool
import LuaFan.Pool.Accounting
import LuaFan.Connector.Send
import LuaFan.Connector.Receive
import LuaFan.Connector.Drain
import LuaFan.Websocket.Frame
import LuaFan.Tcpd.Ssl
import LuaFan.Tcpd.Retain
import LuaFan.Worker.Master
import LuaFan.Worker.Callers
import LuaFan.Worker.Calls
import LuaFan.Lib.Serial
import LuaFan.ReliableUdp.Endpoint
import LuaFan.ReliableUdp.Message
import LuaFan.ReliableUdp.Link
import LuaFan.ReliableUdp.Receiver
import LuaFan.ReliableUdp.Reassembly
import LuaFan.ReliableUdp.Delivery
import LuaFan.ReliableUdp.Range
import LuaFan.ReliableUdp.Windows
import LuaFan.ReliableUdp.Raise
import LuaFan.ReliableUdp.Chain
import LuaFan.Evhttp.Guard
import LuaFan.Evhttp.Metrics
import LuaFan.Websocket.Cleanup
import LuaFan.Lib.Linked
import LuaFan.Websocket.Complete
import LuaFan.Websocket.Session
import LuaFan.Websocket.Receive
import LuaFan.Httpd.Reply
import LuaFan.Stream.Bit
import LuaFan.Httpd.Malformed
import LuaFan.Lib.Lines
import LuaFan.Lib.LuaPattern
import LuaFan.Httpd.KeepAlive
import LuaFan.Httpd.ContentLength
import LuaFan.Httpd.RateLimit
import LuaFan.Httpd.Encoding
import LuaFan.Httpd.Router
import LuaFan.Httpd.Magic
import LuaFan.Httpd.Framing
import LuaFan.Lib.Segments
import LuaFan.Http.Client
import LuaFan.Http.Response
import LuaFan.Http.Escape
import LuaFan.Http.Fillheader
import LuaFan.Http.Answer
import LuaFan.Http.Url
import LuaFan.Http.Request
import LuaFan.Httpd.Params
import LuaFan.Lib.Handles
import LuaFan.Lib.Doubly
import LuaFan.Http.Core
import LuaFan.Http.Ownership
import LuaFan.Http.Transfers
import LuaFan.Fan.Popen
