import HzResearch.DecoderResults
import HzResearch.ReadExtent
import HzResearch.BulkReads
import HzResearch.Stream
import HzResearch.Seek
import HzResearch.Truncation
import HzResearch.Inflate
import HzResearch.BulkWrites
import HzResearch.Reuse
import HzResearch.Surplus
import HzResearch.Jni
import HzResearch.InPlace
import HzResearch.Rewriting
import HzResearch.Replies
import HzResearch.Builds
import HzResearch.Browsing
import HzResearch.Benchmark
import HzResearch.Delivery
import HzResearch.Interchange
