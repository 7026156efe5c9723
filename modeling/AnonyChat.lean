import AnonyChat.Lib.CString
import AnonyChat.Lib.Machine
import AnonyChat.Lib.GHashTable
import AnonyChat.Lib.Flood
import AnonyChat.Lib.Linked
import AnonyChat.Lib.Bfs
import AnonyChat.Lib.Interleave
import AnonyChat.Base64
import AnonyChat.Enc
import AnonyChat.Msg
import AnonyChat.ClientServer
import AnonyChat.RoundTrip
import AnonyChat.Duplicates
import AnonyChat.Anonymity
import AnonyChat.Peers
import AnonyChat.Framing
import AnonyChat.Network
import AnonyChat.Coverage
import AnonyChat.FloodBound
import AnonyChat.List
import AnonyChat.ListRefines
import AnonyChat.Tree
import AnonyChat.NameServer
import AnonyChat.GraphSearch
import AnonyChat.Distribution
import AnonyChat.Threads
import AnonyChat.Sizes
import AnonyChat.Decoding
import AnonyChat.PeerList
import AnonyChat.PeerAgreement
import AnonyChat.Refresh
import AnonyChat.Lib.Block
import AnonyChat.Padding
import AnonyChat.Lib.Cycle
import AnonyChat.Lib.RecvLoop
import AnonyChat.PeerBuffers
import AnonyChat.Connections
import AnonyChat.Fields
import AnonyChat.Receive
import AnonyChat.Membership
import AnonyChat.KeyTable
import AnonyChat.Shuffle
import AnonyChat.Search
import AnonyChat.Typing
import AnonyChat.Lib.Feed
import AnonyChat.Lib.Mutex
import AnonyChat.Delivery
import AnonyChat.Origin
import AnonyChat.Rounds
import AnonyChat.Discovery
import AnonyChat.Chat
import AnonyChat.Descriptors
import AnonyChat.Locks
import AnonyChat.Announce
import AnonyChat.Regrouping
import AnonyChat.Forgetting
import AnonyChat.Starting
