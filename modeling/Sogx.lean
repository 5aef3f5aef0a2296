import Sogx.Lib.Bytes
import Sogx.Lib.Records
import Sogx.Lib.Machine
import Sogx.Jvm.Utils
import Sogx.Ios.MJPEGReader
import Sogx.Native.ImageMessage
import Sogx.Native.Recog
import Sogx.Native.RabbitRpcServer
import Sogx.Jvm.RecogSessions
import Sogx.Jvm.Webapp
import Sogx.Ios.RTSPClientConnection
import Sogx.Ios.AVEncoder
import Sogx.Ios.FileSwitch
import Sogx.Lib.BitProgram
import Sogx.Native.Coins
import Sogx.Ios.NALUnit
import Sogx.Ios.SeqParamSet
import Sogx.Ios.EncodedFrames
import Sogx.Ios.FrameTimes
import Sogx.Lib.Lines
import Sogx.Ios.RTSPMessage
import Sogx.Ios.RTSPSession
import Sogx.Ios.RTSPSegments
import Sogx.Ios.MP4Atom
import Sogx.Ios.FileScan
import Sogx.Ios.AvcCHeader
import Sogx.Ios.SkipBits
import Sogx.Ios.ParameterSets
import Sogx.Jvm.Cli
import Sogx.Ios.CVServer
import Sogx.Ios.RTSPSetup
import Sogx.Ios.WebSocketFragment
import Sogx.Ios.WebSocketSender
import Sogx.Ios.WebSocket
import Sogx.Ios.Base64Category
import Sogx.Ios.WebSocketHandshake
import Sogx.Ios.WebSocketRuns
import Sogx.Ios.WebSocketReads
import Sogx.Native.JzonParser
import Sogx.Native.JzonRoundTrip
import Sogx.Lib.Buffer
import Sogx.Native.AmqpTable
import Sogx.Native.AmqpMethods
import Sogx.Native.AmqpProperties
import Sogx.Native.AmqpFrame
import Sogx.Native.AmqpSocket
import Sogx.Native.ChannelImpl
import Sogx.Native.AmqpPublish
