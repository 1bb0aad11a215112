import Sana.Localstore.SetOrder
import Sana.Localstore.EvictionWorker
import Sana.Localstore.PinCounts
import Sana.Localstore.SubscribePush
import Sana.Localstore.Unlocked
import Sana.Postage.Radius
import Sana.Postage.StampIssuer
import Sana.Postage.BatchService
import Sana.Postage.Recovery
import Sana.Accounting.Clients
import Sana.Settlement.Refreshments
import Sana.Settlement.Issued
import Sana.Settlement.Payments
import Sana.Mine.RollCall
import Sana.Mine.RollCallSign
import Sana.Mine.Signatures
import Sana.Mine.Collect
import Sana.Mine.NodeService
import Sana.Mine.Inaction
import Sana.Pushsync.Forwarding
import Sana.Retrieval.Forwarding
import Sana.Encryption.Encryption
import Sana.Topology.Partition
import Sana.Feeds.Epochs
import Sana.Transaction.Send
