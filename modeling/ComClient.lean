import ComClient.Gf2.Poly
import ComClient.Gf2.Register
import ComClient.Gf2.Detect
import ComClient.Gf2.Window
import ComClient.Gf2.Period
import ComClient.Gf2.Primitive
import ComClient.Transport.Memory
import ComClient.Probe.Reads
import ComClient.Crc.Code
import ComClient.Crc.Reads
import ComClient.Crc.Detect
import ComClient.Crc.Transpose
import ComClient.Crc.Serial
import ComClient.Transport.Code
import ComClient.Transport.ReadLoop
import ComClient.Transport.ReadUntil
import ComClient.Transport.Checked
import ComClient.Transport.Verdict
import ComClient.Transport.Frames
import ComClient.Transport.Windows
import ComClient.Crc.Limits
import ComClient.Lts.Run
import ComClient.Lts.Refine
import ComClient.Lts.Mailbox
import ComClient.Lts.Rank
import ComClient.Crc.Once
import ComClient.Server.Registry
import ComClient.Server.Tcp
import ComClient.Server.Steps
import ComClient.Server.Reuse
import ComClient.Server.Threads
import ComClient.Server.Stop
import ComClient.Server.Fifo
import ComClient.Server.Mailboxes
import ComClient.Server.Uplink
import ComClient.Server.Drain
import ComClient.Server.Shutdown
import ComClient.Server.Bounds
import ComClient.Server.Serving
import ComClient.Server.Lifecycle
import ComClient.Server.Restart
import ComClient.Server.Broadcast
import ComClient.Server.Calls
import ComClient.Server.ReadByte
import ComClient.Server.Answered
import ComClient.Server.Notify
import ComClient.Server.UdpFifos
import ComClient.Server.UdpStop
import ComClient.Client.Open
import ComClient.Client.Device
import ComClient.Client.Object
import ComClient.Client.Flag
import ComClient.Client.Descriptors
import ComClient.Client.Peer
import ComClient.Client.Wire
import ComClient.Server.Echo
import ComClient.Server.Bounce
import ComClient.Client.Shared
import ComClient.Client.Deadlock
import ComClient.Lines.Head
import ComClient.Libc.Text
import ComClient.Http.Code
import ComClient.Client.Requests
import ComClient.Board.Sampling
import ComClient.Http.Paired
import ComClient.Http.Request
import ComClient.Http.Get
import ComClient.Http.Overrun
import ComClient.Http.Inside
import ComClient.Http.Body
import ComClient.Http.Counted
import ComClient.Http.Concurrent
import ComClient.Http.Status
import ComClient.Http.Decode
