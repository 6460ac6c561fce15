import ScriptBundle.Build.LineScript
import ScriptBundle.Project
import ScriptBundle.Proofs.Codec.Node
import ScriptBundle.Proofs.Codec.Credential
import ScriptBundle.Proofs.Schema.WellFormed
import ScriptBundle.Proofs.Codec.Primitive
import ScriptBundle.Proofs.Codec.RoundTrip
import ScriptBundle.Proofs.Codec.Conforms
import ScriptBundle.Proofs.Codec.Plain
import ScriptBundle.Proofs.Codec.Permissive
import ScriptBundle.Proofs.Codec.Canonical
import ScriptBundle.Proofs.Codec.Forms
import ScriptBundle.Proofs.NameMap
import ScriptBundle.Proofs.Build.Walk
import ScriptBundle.Proofs.Build.Order
import ScriptBundle.Proofs.Json.Document
import ScriptBundle.Proofs.Data.Binary
import ScriptBundle.Proofs.Schema.Document
import ScriptBundle.Proofs.Store.Key
import ScriptBundle.Proofs.Store.Record
import ScriptBundle.Proofs.Store.Nesting
import ScriptBundle.Proofs.Store.Replay
import ScriptBundle.Proofs.Store.Folder
import ScriptBundle.Proofs.Build.Work
import ScriptBundle.Proofs.Build.Bundle
import ScriptBundle.Proofs.Build.Compile
import ScriptBundle.Proofs.Build.Alike
import ScriptBundle.Proofs.Build.Cached
import ScriptBundle.Proofs.Build.Requests
import ScriptBundle.Proofs.Build.Restore
import ScriptBundle.Proofs.Build.Locality
import ScriptBundle.Proofs.Build.Harvest
import ScriptBundle.Proofs.Build.Expected
import ScriptBundle.Proofs.Build.Consistent
import ScriptBundle.Proofs.Codec.Network
import ScriptBundle.Proofs.Store.Keyed
import ScriptBundle.Proofs.Store.Damage
import ScriptBundle.Proofs.Store.Offers
import ScriptBundle.Proofs.Build.Repair
import ScriptBundle.Proofs.Build.Schemas
import ScriptBundle.Proofs.Codec.Address
import ScriptBundle.Proofs.Build.Filled
import ScriptBundle.Proofs.Store.Intact
import ScriptBundle.Proofs.Build.Complaints
import ScriptBundle.Proofs.Build.Late
import ScriptBundle.Proofs.Codec.Place
import ScriptBundle.Proofs.Codec.Prune
import ScriptBundle.Proofs.Project
import ScriptBundle.Proofs.Codec.Unread
import ScriptBundle.Proofs.Decimal
import ScriptBundle.Proofs.Build.Layout
import ScriptBundle.Proofs.Build.Declared
import ScriptBundle.Proofs.Schema.Walk
import ScriptBundle.Proofs.Data.Json
import ScriptBundle.Proofs.Bytes.Base128
import ScriptBundle.Proofs.Digest
