import BenTorrent.File.Canonical
import BenTorrent.Model.InfoHash
import BenTorrent.Model.Tracker
import BenTorrent.Peer.Io.Verification
import BenTorrent.Peer.Io.Content
import BenTorrent.Peer.Io.Coverage
import BenTorrent.Peer.Io.Handler
import BenTorrent.Peer.Net
import BenTorrent.Peer.Handshake
import BenTorrent.Peer.State.Lifecycle
import BenTorrent.Peer.State.History
import BenTorrent.Peer.State.Rebuild
import BenTorrent.Peer.State.Capacity
import BenTorrent.Peer.State.Rollback
import BenTorrent.Peer.State.Expiry
import BenTorrent.Peer.State.Interest
import BenTorrent.Peer.State.Report
import BenTorrent.Peer.State.Offer
import BenTorrent.Peer.Start.Choke
import BenTorrent.Peer.Start.Unchoke
import BenTorrent.Peer.Start.Wake
import BenTorrent.Peer.Start.Lock
import BenTorrent.Peer.Start.Wait
import BenTorrent.Peer.Start.Sent
import BenTorrent.Peer.Start.Upload
import BenTorrent.Peer.Start.Dequeue
import BenTorrent.Peer.Start.Close
import BenTorrent.Peer.Start.Pending
import BenTorrent.Peer.Start.Reach
import BenTorrent.Peer.Start.Announce
import BenTorrent.Peer.Start.Reply
import BenTorrent.Peer.Start.Stall
import BenTorrent.Peer.Start.Zombie
import BenTorrent.Peer.Start.Conversation
import BenTorrent.Peer.Start.Progress
import BenTorrent.Peer.Start.Ask
import BenTorrent.Peer.Start.Arms
import BenTorrent.Peer.Start.Forget
import BenTorrent.Peer.Start.Wire
import BenTorrent.Peer.Start.Frames
