import NetLab.Library.Blocks
import NetLab.Library.Broadcast
import NetLab.Library.ByteStream
import NetLab.Library.Bytes
import NetLab.Library.CString
import NetLab.Library.Chunk
import NetLab.Library.Comparator
import NetLab.Library.Counting
import NetLab.Library.Cursor
import NetLab.Library.Descriptors
import NetLab.Library.Fifo
import NetLab.Library.Handover
import NetLab.Library.History
import NetLab.Library.IStream
import NetLab.Library.Inet
import NetLab.Library.Insertion
import NetLab.Library.Lockstep
import NetLab.Library.Merge
import NetLab.Library.Message
import NetLab.Library.Percent
import NetLab.Library.Possibility
import NetLab.Library.Quoted
import NetLab.Library.Registry
import NetLab.Library.Retry
import NetLab.Library.SortedMap
import NetLab.Library.StopAndWait
import NetLab.Library.Transition
import NetLab.Tftp.Accepted
import NetLab.Tftp.Download
import NetLab.Tftp.DownloadUnordered
import NetLab.Tftp.Get
import NetLab.Tftp.GivesUp
import NetLab.Tftp.Headers
import NetLab.Tftp.Loopback
import NetLab.Tftp.Outsiders
import NetLab.Tftp.Packet
import NetLab.Tftp.Peer
import NetLab.Tftp.Progress
import NetLab.Tftp.Put
import NetLab.Tftp.Recovery
import NetLab.Tftp.Repeats
import NetLab.Tftp.Requested
import NetLab.Tftp.Sequence
import NetLab.Tftp.Upload
import NetLab.Chat.Echo
import NetLab.Chat.Hearing
import NetLab.Chat.ProcessRoom
import NetLab.Chat.Slots
import NetLab.Chat.ThreadRoom
import NetLab.Chat.UdpRoom
import NetLab.Sharing.Receive
import NetLab.Sharing.Registry
import NetLab.Sharing.Replies
import NetLab.Sharing.Send
import NetLab.Sharing.Service
import NetLab.Sharing.Transfer
import NetLab.Netcat.Relay
import NetLab.Np20.Answer
import NetLab.Np20.Atomic
import NetLab.Np20.Crawl
import NetLab.Np20.Decode
import NetLab.Np20.Download
import NetLab.Np20.Fields
import NetLab.Np20.Handler
import NetLab.Np20.HeaderLoops
import NetLab.Np20.Host
import NetLab.Np20.Links
import NetLab.Np20.Listing
import NetLab.Np20.PostHead
import NetLab.Np20.Requests
import NetLab.Np20.Responses
import NetLab.Np20.Safety
import NetLab.Np20.Segments
import NetLab.Np20.Store
import NetLab.Np20.Storing
import NetLab.Np20.Target
import NetLab.Np20.Upload
import NetLab.Np20.Url
import NetLab.Http.Encode
import NetLab.Http.Entries
import NetLab.Http.Links
import NetLab.Http.Order
import NetLab.Http.Page
import NetLab.Http.Reader
import NetLab.Http.Response
import NetLab.Http.Server
import NetLab.Scandir.Entering
import NetLab.Scandir.Navigation
import NetLab.Scandir.Order
import NetLab.Shell.Session
import NetLab.Telnet.Log
