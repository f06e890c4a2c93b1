import Ldgr.Format.Cbor.Tolerant
import Ldgr.Format.ValueAgreement
import Ldgr.Journal.SnapshotProperties
import Ldgr.Journal.Segment.TornLog
import Ldgr.Journal.Segment.SealCrash
import Ldgr.Journal.FaultRelevance
import Ldgr.Explorer.FaultBudget
import Ldgr.Explorer.Ddmin
import Ldgr.Explorer.OracleProperties
import Ldgr.Explorer.HittingSetProperties
import Ldgr.Sim.RunJournal
import Ldgr.Format.ValueBounds
import Ldgr.Journal.Segment.IndexingProperties
import Ldgr.Worker.QueueProperties
import Ldgr.Journal.Slice
import Ldgr.Flow.Histories
import Ldgr.Format.DecodedPaths
import Ldgr.Journal.IdentityProperties
import Ldgr.Format.Manifest
import Ldgr.Journal.Segment.RoundTrip
import Ldgr.Sim.ConfigSpelling
import Ldgr.Sim.ResidentBudget
import Ldgr.Sim.TimeProperties
import Ldgr.Explorer.SupportDigest
import Ldgr.Explorer.MinimalHittingSets
import Ldgr.Explorer.SamcProperties
import Ldgr.Sim.WasiFs
import Ldgr.Explorer.Ldfi
import Ldgr.Rt.Net
import Ldgr.Explorer.Diagnosis
