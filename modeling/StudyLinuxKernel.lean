import StudyLinuxKernel.Library.PartialStep
import StudyLinuxKernel.Library.Occurrences
import StudyLinuxKernel.Library.Trim
import StudyLinuxKernel.Library.OrderedSet
import StudyLinuxKernel.Library.LinkedHeap
import StudyLinuxKernel.Library.LexicalPath
import StudyLinuxKernel.Library.Cutting
import StudyLinuxKernel.Library.LittleEndian
import StudyLinuxKernel.Library.RecordWalk
import StudyLinuxKernel.Library.CheckedRun
import StudyLinuxKernel.Library.StepBound
import StudyLinuxKernel.Library.Exclusion
import StudyLinuxKernel.Library.DatagramNetwork
import StudyLinuxKernel.Library.Signals
import StudyLinuxKernel.Library.DescriptorTable
import StudyLinuxKernel.Libc.Decimal
import StudyLinuxKernel.Libc.Text
import StudyLinuxKernel.Libc.CharArray
import StudyLinuxKernel.Libc.Inet
import StudyLinuxKernel.Libc.Stdio
import StudyLinuxKernel.Hashtable.Table
import StudyLinuxKernel.Hashtable.Refinement
import StudyLinuxKernel.Hashtable.Iteration
import StudyLinuxKernel.Epoll.ReadyList
import StudyLinuxKernel.Epoll.ListRefinement
import StudyLinuxKernel.Epoll.EventLoop
import StudyLinuxKernel.Epoll.FailedGrowth
import StudyLinuxKernel.Epoll.Cursor
import StudyLinuxKernel.Epoll.EdgeTriggered
import StudyLinuxKernel.Socket.AcceptedSet
import StudyLinuxKernel.Socket.MaxFd
import StudyLinuxKernel.Socket.ProcessServer
import StudyLinuxKernel.Socket.ThreadServer
import StudyLinuxKernel.Socket.SelectClient
import StudyLinuxKernel.Socket.Conversation
import StudyLinuxKernel.Socket.Answers
import StudyLinuxKernel.Socket.Echo
import StudyLinuxKernel.Socket.EchoCompletion
import StudyLinuxKernel.Socket.UnixdomainPair
import StudyLinuxKernel.Http.Text
import StudyLinuxKernel.Http.TextHelpers
import StudyLinuxKernel.Http.Request
import StudyLinuxKernel.Http.HeaderLines
import StudyLinuxKernel.Http.HeaderOrder
import StudyLinuxKernel.Http.RequestEncoding
import StudyLinuxKernel.Http.HeadBody
import StudyLinuxKernel.Http.Response
import StudyLinuxKernel.Http.ResponseEncoding
import StudyLinuxKernel.Http.ResponseContent
import StudyLinuxKernel.Http.SelectServer
import StudyLinuxKernel.Http.ResponseIsolation
import StudyLinuxKernel.Http.ResponseDelivery
import StudyLinuxKernel.Http.ResponseFraming
import StudyLinuxKernel.Http.StaticFiles
import StudyLinuxKernel.Http.RejectedRequests
import StudyLinuxKernel.Http.Segmentation
import StudyLinuxKernel.Broadcast.SelectServer
import StudyLinuxKernel.Broadcast.Delivery
import StudyLinuxKernel.Broadcast.Order
import StudyLinuxKernel.Pipe.Barrier
import StudyLinuxKernel.Pipe.Primer
import StudyLinuxKernel.Pipe.Filter
import StudyLinuxKernel.Pipe.FilterCompletion
import StudyLinuxKernel.Fifo.Records
import StudyLinuxKernel.Fifo.Protocol
import StudyLinuxKernel.Fifo.Exchange
import StudyLinuxKernel.Fifo.NonInterference
import StudyLinuxKernel.Fifo.Progress
import StudyLinuxKernel.Fifo.Completion
import StudyLinuxKernel.Chatroom.Server
import StudyLinuxKernel.Chatroom.Broadcast
import StudyLinuxKernel.Chatroom.Registration
import StudyLinuxKernel.Chatroom.Delivery
import StudyLinuxKernel.Chatroom.Client
import StudyLinuxKernel.Chatroom.Bounds
import StudyLinuxKernel.Chatroom.RegistrationRuns
import StudyLinuxKernel.Chatroom.EndToEnd
import StudyLinuxKernel.Chatroom.ClientBounds
import StudyLinuxKernel.Chatroom.Network
import StudyLinuxKernel.Signal.Handlers
import StudyLinuxKernel.Signal.Statistics
import StudyLinuxKernel.Signal.SyncProcess
import StudyLinuxKernel.Signal.Nonreentrant
import StudyLinuxKernel.IoModel.LineInput
import StudyLinuxKernel.IoModel.SignalDriven
import StudyLinuxKernel.IoModel.SignalFlag
import StudyLinuxKernel.IoModel.EpollRelay
import StudyLinuxKernel.Inotify.Records
import StudyLinuxKernel.Inotify.ReadLoop
import StudyLinuxKernel.Inotify.HandleEvents
import StudyLinuxKernel.Inotify.MonitoringDir
import StudyLinuxKernel.Inotify.Commands
import StudyLinuxKernel.FileIo.Copy
