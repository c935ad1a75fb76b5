import TorrentX.Machinery.RankedSet
import TorrentX.Machinery.Wire
import TorrentX.Machinery.Run
import TorrentX.Machinery.Outcome
import TorrentX.Machinery.SessionLog
import TorrentX.Machinery.Ledger
import TorrentX.Machinery.Outline
import TorrentX.Machinery.Forest
import TorrentX.Machinery.PathForest
import TorrentX.Machinery.LeafOrder
import TorrentX.Machinery.Preorder
import TorrentX.Machinery.Sighting
import TorrentX.Machinery.Load
import TorrentX.Machinery.Joined
import TorrentX.Machinery.Numerals
import TorrentX.Machinery.QString
import TorrentX.Machinery.Json
import TorrentX.Tracker.TorrentDataBase
import TorrentX.Tracker.Account
import TorrentX.Tracker.Membership
import TorrentX.Tracker.Counters
import TorrentX.Tracker.Independence
import TorrentX.Tracker.Downloads
import TorrentX.Tracker.Sampling
import TorrentX.Tracker.UdpServer
import TorrentX.Tracker.Parse
import TorrentX.Tracker.Encode
import TorrentX.Tracker.Dispatch
import TorrentX.Tracker.Addresses
import TorrentX.Tracker.ReplySize
import TorrentX.Tracker.Initialised
import TorrentX.Tracker.ReadOnly
import TorrentX.Tracker.Service
import TorrentX.Tracker.Faults
import TorrentX.Tracker.Start
import TorrentX.Tracker.Replies
import TorrentX.Tracker.Network
import TorrentX.Tracker.Unread
import TorrentX.Client.FilesPicker
import TorrentX.Client.Marks
import TorrentX.Client.Selection
import TorrentX.Client.FileTree
import TorrentX.Client.Numbering
import TorrentX.Client.FirstSight
import TorrentX.Client.Walk
import TorrentX.Client.Priorities
import TorrentX.Client.RowOrder
import TorrentX.Client.Sizes
import TorrentX.Client.TreeBounds
import TorrentX.Client.RowBounds
import TorrentX.Client.EndTime
import TorrentX.Client.Linker
import TorrentX.Client.TorrentAPI
import TorrentX.Client.Calls
import TorrentX.Client.Handles
import TorrentX.Client.CurrentHandles
import TorrentX.Client.Shown
import TorrentX.Client.Prepare
import TorrentX.Gui.Database
import TorrentX.Gui.Restore
import TorrentX.Gui.Window
import TorrentX.Gui.Slots
import TorrentX.Gui.Fits
import TorrentX.Gui.Rows
import TorrentX.Gui.Chosen
import TorrentX.Gui.Sessions
import TorrentX.Gui.MakeTorrent
