import TopicServer.Base
import TopicServer.Lib.Glob
import TopicServer.Lib.Lts
import TopicServer.Lib.Mem
import TopicServer.Lib.Text
import TopicServer.Match
import TopicServer.Subs
import TopicServer.Wire
import TopicServer.Poll
import TopicServer.Udp
import TopicServer.Notice
import TopicServer.Stdio
import TopicServer.Client
import TopicServer.Lib.Table
import TopicServer.Server
import TopicServer.Session
import TopicServer.Commands
import TopicServer.Capacity
import TopicServer.Delivery
import TopicServer.Lib.Fifo
import TopicServer.Net
import TopicServer.Order
import TopicServer.Relogin
import TopicServer.FastPath
import TopicServer.Refusal
import TopicServer.Limits
import TopicServer.Numeric
import TopicServer.Lines
import TopicServer.EndOfInput
import TopicServer.Descriptors
import TopicServer.Progress
import TopicServer.Pass
import TopicServer.Stream
import TopicServer.Calls
import TopicServer.Pipe
import TopicServer.System
import TopicServer.Requests
import TopicServer.EndToEnd
import TopicServer.Publish
import TopicServer.Fate
