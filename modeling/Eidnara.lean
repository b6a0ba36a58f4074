import Eidnara.CacheStability.Freshness
import Eidnara.ContextCore.Redaction.Copying
import Eidnara.Daemon.Boundary.Fencing
import Eidnara.Daemon.ContentEpoch
import Eidnara.Daemon.HistorySummarizer.Coverage
import Eidnara.Daemon.Packing.Finalize
import Eidnara.Daemon.PushJsonString
import Eidnara.Daemon.ServedJson.Blocks
import Eidnara.Daemon.Transform.Pairing
import Eidnara.Daemon.WindowCoverage
import Eidnara.HostRuntime.Fairness
import Eidnara.HostRuntime.FrameChannel
import Eidnara.HostRuntime.Publisher
import Eidnara.Kernel.Applicability.Batch
import Eidnara.Kernel.Cas.Usage
import Eidnara.Kernel.LineageBatch
import Eidnara.Kernel.Outbox.Barriers
import Eidnara.Kernel.Outbox.Retention
import Eidnara.Lease.Epoch
import Eidnara.MemoryStore.TaskLease.Acquisition
import Eidnara.Retrieval.Dense.Capacity
import Eidnara.Retrieval.Dense.Codec
import Eidnara.Retrieval.Fusion.Identity
import Eidnara.Retrieval.Fusion.Rrf
import Eidnara.Retrieval.Lexical.Analysis
import Eidnara.Retrieval.Resolve
import Eidnara.SecretScanner.KeywordSearch
import Eidnara.ShmTransport.Admission
import Eidnara.ShmTransport.Grant
import Eidnara.ShmTransport.Partition
import Eidnara.ShmTransport.Ring.Capacity
import Eidnara.ShmTransport.Ring.Settlement
import Eidnara.Tokenizer.Paragraphs
