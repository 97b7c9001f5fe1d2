import Haute.Shred.Conservation
import Haute.Output.Limit
import Haute.Cache.Recency
import Haute.Admission.Conservation
import Haute.Flights.Stranding
import Haute.Jobs.Artifacts
import Haute.Jobs.Retention
import Haute.Jobs.Precedence
import Haute.Supersession.Latest
import Haute.Events.Bus
import Haute.Quotes.Ledger
import Haute.Quotes.Owned
import Haute.Git.Forked
import Haute.Fingerprint.Identity
import Haute.Shred.Parallel
import Haute.Inference.Chunks
import Haute.Schema.Spelling
import Haute.Shred.Columns
import Haute.Shred.SingleElements
import Haute.Workbench.Alike
import Haute.Steps.ReadsBack
import Haute.Graph.Topo
import Haute.Banding.Claims
import Haute.Banding.Sidecar
import Haute.Graph.Ids
import Haute.Rating.Regrid
import Haute.Rating.Combined
import Haute.Canonical.Identity
import Haute.Join.Narrow
import Haute.Layout.ReadBack
import Haute.Quotes.Paging
import Haute.Cardinality.Sound
import Haute.Docstrings.Survives
import Haute.Split.Promises
import Haute.Steps.Decimals
import Haute.Inference.Folded
import Haute.Workbench.Preset
import Haute.Inference.Filter
import Haute.Inference.Known
import Haute.Inference.Learned
import Haute.Inference.Parallel
import Haute.Lineage.Keyed
