import NetworkCourse.Lib.Cut
import NetworkCourse.Lib.Feed
import NetworkCourse.Lib.Ascii
import NetworkCourse.Lib.Machine
import NetworkCourse.Lib.Trace
import NetworkCourse.Lib.Memory
import NetworkCourse.Lib.CInt
import NetworkCourse.Lib.Flex
import NetworkCourse.Lib.Stride
import NetworkCourse.Lib.Window
import NetworkCourse.Lib.TextLines
import NetworkCourse.Intro.LineReader
import NetworkCourse.Intro.Segments
import NetworkCourse.Intro.ClientReader
import NetworkCourse.Intro.Returned
import NetworkCourse.Intro.Accesses
import NetworkCourse.Intro.Server
import NetworkCourse.Intro.Session
import NetworkCourse.Intro.Responses
import NetworkCourse.Intro.Deadlock
import NetworkCourse.Intro.Lockstep
import NetworkCourse.DelayAck.BufferedReader
import NetworkCourse.DelayAck.Server
import NetworkCourse.DelayAck.Rounds
import NetworkCourse.Bk.EchoServer
import NetworkCourse.Calc.Tables
import NetworkCourse.Calc.Parser
import NetworkCourse.Calc.Frames
import NetworkCourse.Calc.Follows
import NetworkCourse.Calc.Grammar
import NetworkCourse.Calc.Reading
import NetworkCourse.Calc.Accepts
import NetworkCourse.Calc.Reached
import NetworkCourse.Calc.Rejected
import NetworkCourse.Calc.Depth
import NetworkCourse.Calc.Scanner
import NetworkCourse.Calc.Session
import NetworkCourse.Calc.Boundary
import NetworkCourse.Calc.RoundTrip
import NetworkCourse.Calc.Defined
import NetworkCourse.Calc.StackSize
import NetworkCourse.Calc.SymAccess
import NetworkCourse.Calc.Buffer
import NetworkCourse.Calc.Yylex
import NetworkCourse.Calc.Program
import NetworkCourse.Calc.Arrays
import NetworkCourse.PollDev.Device
import NetworkCourse.PollDev.Races
import NetworkCourse.PollDev.Wakeups
import NetworkCourse.Wc.Counts
import NetworkCourse.Port.BindTable
import NetworkCourse.Port.FindOpenPort
import NetworkCourse.Port.HashConnect
import NetworkCourse.Port.Connects
import NetworkCourse.Port.Probes
import NetworkCourse.Port.ConnectTest
import NetworkCourse.Live.EpollTest
import NetworkCourse.Live.Permuted
import NetworkCourse.Live.SelectTest
import NetworkCourse.Live.WholeLines
import NetworkCourse.Live.Sessions
import NetworkCourse.WebSocket.Server
import NetworkCourse.WebSocket.Echo
import NetworkCourse.Calc.Turns
import NetworkCourse.Intro.Main2
