import Pixie.Lib.Decimal
import Pixie.Lib.Scan
import Pixie.Lib.Run
import Pixie.Lib.Prog
import Pixie.Lib.Cells
import Pixie.Blk.Message
import Pixie.Blk.Parser
import Pixie.Blk.Frame
import Pixie.Net.Calls
import Pixie.Blk.Socket
import Pixie.Blk.Stream
import Pixie.Blk.Decoder
import Pixie.Twc.Buffer
import Pixie.Twc.Channel
import Pixie.Twc.Machine
import Pixie.Twc.Fidelity
import Pixie.Twc.Delivery
import Pixie.Twc.Phases
import Pixie.Twc.Interest
import Pixie.Twc.Failures
import Pixie.Twc.Accounts
import Pixie.Twc.Contain
import Pixie.Work.Queue
import Pixie.Work.Threads
import Pixie.Proxy.System
import Pixie.Proxy.Handler
import Pixie.Proxy.Session
import Pixie.Proxy.Echo
import Pixie.Proxy.Faults
import Pixie.Proxy.Routing
import Pixie.Proxy.Descriptors
import Pixie.Proxy.Conversation
import Pixie.Proxy.Exchange
import Pixie.Http.Message
import Pixie.Http.Buffer
import Pixie.Http.Parser
import Pixie.Http.Grammar
import Pixie.Http.Callbacks
import Pixie.Http.Assembly
import Pixie.Http.Safety
import Pixie.Http.EndOfStream
import Pixie.Http.Single
import Pixie.Http.Trailers
import Pixie.Http.Errors
import Pixie.Lib.Crlf
import Pixie.Http.Text
import Pixie.Blk.Documented
import Pixie.Blk.Invariant
import Pixie.Blk.Reading
import Pixie.Blk.Rewriting
import Pixie.Proxy.Connecting
import Pixie.Proxy.Writing
import Pixie.Lib.Fifo
import Pixie.Proxy.Ports
import Pixie.Twc.Fifo
import Pixie.Twc.Commute
import Pixie.Lib.Pieces
import Pixie.Engine.State
import Pixie.Engine.Execute
import Pixie.Engine.Step
import Pixie.Engine.FirstLine
import Pixie.Engine.Headers
import Pixie.Engine.Bodies
import Pixie.Engine.Sound
import Pixie.Engine.Scan
import Pixie.Engine.Session
import Pixie.Engine.Segments
import Pixie.Engine.Wrapper
import Pixie.Lib.Words
import Pixie.Lib.Residual
import Pixie.Engine.Runs
import Pixie.Engine.Names
import Pixie.Engine.Fields
import Pixie.Engine.Start
import Pixie.Engine.Heads
import Pixie.Engine.Frames
import Pixie.Engine.Messages
import Pixie.Engine.Calls
import Pixie.Engine.Delivery
import Pixie.Engine.Urls
import Pixie.Engine.Printed
import Pixie.Lib.Monitor
import Pixie.Lib.Ownership
import Pixie.Proxy.Ownership
import Pixie.Server.Process
import Pixie.Server.Isolation
import Pixie.Work.Progress
