import CrdtStore.Library.UnorderedMap
import CrdtStore.Library.Replication
import CrdtStore.Timestamp
import CrdtStore.LWWRegister
import CrdtStore.ORSet
import CrdtStore.ORSetMerge
import CrdtStore.ORSetRun
import CrdtStore.Map
import CrdtStore.MapRun
import CrdtStore.ORSetJoin
import CrdtStore.MapSync
import CrdtStore.MapValues
import CrdtStore.MapLastWriter
import CrdtStore.Deployment
import CrdtStore.Session
import CrdtStore.Library.Json
import CrdtStore.Codec
import CrdtStore.RoundTrip
import CrdtStore.Broadcast
import CrdtStore.RequestUtilities
import CrdtStore.Handler
import CrdtStore.ORSetDelivery
import CrdtStore.GCounter
import CrdtStore.RegisterRun
import CrdtStore.LoadBalancer
import CrdtStore.PlainMap
import CrdtStore.StateCheck
import CrdtStore.Library.JsonText
import CrdtStore.FormatJson
import CrdtStore.FormatSpaces
import CrdtStore.FormatValues
import CrdtStore.ORSetTags
import CrdtStore.IterationOrder
import CrdtStore.Client
import CrdtStore.Library.Transition
import CrdtStore.Connect
import CrdtStore.Decoded
import CrdtStore.Network
import CrdtStore.SmallNumbers
import CrdtStore.NetworkRefinement
import CrdtStore.Convergence
import CrdtStore.Library.InputStream
import CrdtStore.Menu
import CrdtStore.VersionVector
import CrdtStore.BracketFree
import CrdtStore.GetState
import CrdtStore.InSync
import CrdtStore.ClientRun
import CrdtStore.Startup
import CrdtStore.Provenance
import CrdtStore.Ledger
import CrdtStore.Posting
import CrdtStore.Acknowledged
