import Hardy.Bpa.Activation
import Hardy.Bpa.Channel
import Hardy.Bpa.Dispatch
import Hardy.Bpa.FilterEngine
import Hardy.Bpa.Reaper
import Hardy.Bpa.Relay
import Hardy.Bpa.Resolution
import Hardy.Bpa.Siblings
import Hardy.Bpa.Teardown
import Hardy.Bpsec.Bindings
import Hardy.Bpsec.Ranges
import Hardy.Cbor.Tree
import Hardy.Cla.Peers
import Hardy.Echo
import Hardy.Eid.Canonical
import Hardy.Eid.Names
import Hardy.FileCla
import Hardy.Issuing
import Hardy.Parse.Concatenated
import Hardy.Parse.Waiting
import Hardy.Pattern.Lawful
import Hardy.Proto.Correlated
import Hardy.Routing.Admin
import Hardy.Routing.Parking
import Hardy.Routing.Preemption
import Hardy.Routing.Reference
import Hardy.Routing.Snapshot
import Hardy.Routing.StaticRoutes
import Hardy.Storage.BundleMemory
import Hardy.Storage.Cache
import Hardy.Storage.Equivalence
import Hardy.Storage.Postgres
import Hardy.Storage.Walk
import Hardy.Tcpcl.Answered
import Hardy.Tcpcl.Consumed
import Hardy.Tcpcl.Delivered
import Hardy.Tcpcl.Withdrawn
import Hardy.Tvr.Convert
import Hardy.Tvr.Windows
