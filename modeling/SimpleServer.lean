import SimpleServer.Http.HeaderSection
import SimpleServer.Http.ResponseMessage
import SimpleServer.Http.RouteSelection
import SimpleServer.Http.Target
import SimpleServer.Http.Segmentation
import SimpleServer.WebSocket.Delivery
import SimpleServer.WebSocket.Upgrade
import SimpleServer.Tcp.PollList
import SimpleServer.Tcp.PollRegistry
import SimpleServer.Tcp.PollClosing
import SimpleServer.Tcp.PollProgress
import SimpleServer.Tcp.Epoll
import SimpleServer.Tcp.Dispatch
import SimpleServer.Http.HeaderRoundTrip
import SimpleServer.Http.Parameters
import SimpleServer.Http.Ownership
import SimpleServer.WebSocket.Service
import SimpleServer.WebSocket.WholeFrames
import SimpleServer.Http.HeaderValue
import SimpleServer.Http.TypedRoutes
import SimpleServer.Http.AddedRoute
import SimpleServer.Tcp.PollPass
import SimpleServer.WebSocket.Fragments
import SimpleServer.Utils.ReplaceAll
import SimpleServer.Http.Files
import SimpleServer.Http.Chaining
import SimpleServer.Utils.Variant
import SimpleServer.Foundations.Naming
import SimpleServer.Utils.Interfaces
import SimpleServer.WebSocket.Base64Reads
import SimpleServer.Http.Fallback
import SimpleServer.Foundations.Blocks
import SimpleServer.Foundations.OpeningHandshake
import SimpleServer.WebSocket.AcceptKey
import SimpleServer.Foundations.Channel
import SimpleServer.Foundations.HeadLines
import SimpleServer.Foundations.Threads
import SimpleServer.Http.Exchange
import SimpleServer.Tcp.Threads
import SimpleServer.WebSocket.Chat
import SimpleServer.WebSocket.Echo
import SimpleServer.Foundations.Dispenser
import SimpleServer.Http.Start
import SimpleServer.Tcp.Numbers
import SimpleServer.Tcp.PollChat
