import Minnow.Lib.Word
import Minnow.Lib.Loop
import Minnow.Lib.Text
import Minnow.Lib.Outcome
import Minnow.Lib.Fifo
import Minnow.Lib.Assembly
import Minnow.Lib.Tiling
import Minnow.Lib.BigEndian
import Minnow.Lib.OnesSum
import Minnow.Lib.Cursor
import Minnow.ByteStream
import Minnow.ByteStreamFifo
import Minnow.ByteStreamPop
import Minnow.ByteStreamRead
import Minnow.Reassembler
import Minnow.ReassemblerInv
import Minnow.ReassemblerInsert
import Minnow.ReassemblerTracks
import Minnow.ReassemblerPrefix
import Minnow.ReassemblerFit
import Minnow.ReassemblerClose
import Minnow.ReassemblerSeq
import Minnow.ReassemblerTotal
import Minnow.ReassemblerRegular
import Minnow.ReassemblerWindow
import Minnow.Wrap32
import Minnow.TCPMessage
import Minnow.TCPReceiver
import Minnow.TCPSender
import Minnow.TCPPeer
import Minnow.ReceiverStep
import Minnow.ReceiverClose
import Minnow.ReceiverAck
import Minnow.Delivery
import Minnow.ReceiverCount
import Minnow.ReceiverFit
import Minnow.ReceiverSeq
import Minnow.ReceiverWindow
import Minnow.SenderStep
import Minnow.SenderRun
import Minnow.SenderQueue
import Minnow.SenderPush
import Minnow.SenderAck
import Minnow.SenderFin
import Minnow.SenderFill
import Minnow.SenderPayload
import Minnow.SenderTimer
import Minnow.SenderIdle
import Minnow.Network
import Minnow.NetDelivery
import Minnow.NetAck
import Minnow.PeerShutdown
import Minnow.PeerWindow
import Minnow.Parser
import Minnow.InternetChecksum
import Minnow.ParserSplit
import Minnow.IPv4Header
import Minnow.IPv4Grammar
import Minnow.TCPSegment
import Minnow.TCPGrammar
import Minnow.TCPOverIP
import Minnow.Listener
import Minnow.Lib.Act
import Minnow.FileDescriptor
import Minnow.EventLoop
import Minnow.EventLoopRun
import Minnow.StreamCopy
import Minnow.StreamCopyFlow
import Minnow.StreamCopyRun
import Minnow.TCPMinnowSocket
import Minnow.SocketHost
import Minnow.SocketRun
import Minnow.SocketLife
import Minnow.SocketNet
import Minnow.SocketPair
import Minnow.TunAdapter
import Minnow.DatagramAdapter
import Minnow.SocketDatagrams
import Minnow.EthernetFrame
import Minnow.ARPMessage
