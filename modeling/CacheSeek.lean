import CacheSeek.Proofs.BreakEven
import CacheSeek.Proofs.ConnectionLife
import CacheSeek.Proofs.CrashReplay
import CacheSeek.Proofs.EvictionInFlight
import CacheSeek.Proofs.EvictionPlan
import CacheSeek.Proofs.ExactWindow
import CacheSeek.Proofs.FailedPut
import CacheSeek.Proofs.FaissFailedLoad
import CacheSeek.Proofs.FaissFailedWrite
import CacheSeek.Proofs.IngestReuse
import CacheSeek.Proofs.InlineSave
import CacheSeek.Proofs.LatentKeys
import CacheSeek.Proofs.LostLatents
import CacheSeek.Proofs.MetadataCoherence
import CacheSeek.Proofs.MetadataRestart
import CacheSeek.Proofs.PinnedReads
import CacheSeek.Proofs.PointIds
import CacheSeek.Proofs.RestartHidden
import CacheSeek.Proofs.SavesRunOnce
import CacheSeek.Proofs.ShutdownBarrier
import CacheSeek.Proofs.SnapshotMerge
import CacheSeek.Proofs.Staircase
import CacheSeek.Proofs.StoresAgree
import CacheSeek.Proofs.VectorStoresAgree
import CacheSeek.Proofs.WarmRing
import CacheSeek.Proofs.WorldIdentity
