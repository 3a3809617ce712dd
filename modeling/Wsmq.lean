import Wsmq.Sender.Paths
import Wsmq.Sender.FrameSize
import Wsmq.Receiver.Numbers
import Wsmq.Receiver.RoundTrip
import Wsmq.Receiver.Progress
import Wsmq.Receiver.Grammar
import Wsmq.Connection.Matching
import Wsmq.Connection.Ending
import Wsmq.Connection.Isolation
import Wsmq.Connection.Table
import Wsmq.Connection.Drops
import Wsmq.Connection.Server
import Wsmq.Connection.Cancel
import Wsmq.Connection.Panics
import Wsmq.Connection.Control
import Wsmq.Link.Answers
import Wsmq.Link.Quiet
import Wsmq.Link.RoundTrip
import Wsmq.Receiver.Extensions
import Wsmq.Connection.Memory
import Wsmq.Connection.Draws
import Wsmq.Client
import Wsmq.Network
