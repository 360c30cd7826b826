import HistoryAnchor.Effects.Interleaving
import HistoryAnchor.Evidence.Writers
import HistoryAnchor.Exchange.Containment
import HistoryAnchor.Exchange.Recovery
import HistoryAnchor.Gateway.Clients
import HistoryAnchor.Gateway.RelayWork
import HistoryAnchor.Node.Upgrades
import HistoryAnchor.Protocol.Signatures
import HistoryAnchor.Protocol.Typed
import HistoryAnchor.Publication.Choices
import HistoryAnchor.Publication.Reorganisations
import HistoryAnchor.Publication.Roots
import HistoryAnchor.Python.IpAddress
import HistoryAnchor.Resolution.Progress
import HistoryAnchor.Scan.Failures
import HistoryAnchor.Scan.Format
import HistoryAnchor.Sync.Company
import HistoryAnchor.Sync.Cycles
import HistoryAnchor.Sync.Agreement
import HistoryAnchor.Sync.Gossip
import HistoryAnchor.Sync.Pages
import HistoryAnchor.Tables.Windows
import HistoryAnchor.Views.Decisions
import HistoryAnchor.Views.Feed
import HistoryAnchor.Views.Matches
import HistoryAnchor.Protocol.Limits
import HistoryAnchor.Publication.Queue
import HistoryAnchor.Effects.Pools
import HistoryAnchor.Effects.Expansion
import HistoryAnchor.Node.Wallet
import HistoryAnchor.Publication.Quiet
import HistoryAnchor.Publication.Broadcasts
import HistoryAnchor.Publication.Mined
