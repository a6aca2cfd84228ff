import CoreReuse.Index.Counted
import CoreReuse.Main
import CoreReuse.Proofs.Cache.Answers
import CoreReuse.Proofs.Cache.Checks
import CoreReuse.Proofs.Cache.Contents
import CoreReuse.Proofs.Cache.Invariance
import CoreReuse.Proofs.Cache.Rounds
import CoreReuse.Proofs.Carrying
import CoreReuse.Proofs.Fingerprints
import CoreReuse.Proofs.Frames
import CoreReuse.Proofs.Growth
import CoreReuse.Proofs.Histories
import CoreReuse.Proofs.Index.Filling
import CoreReuse.Proofs.Index.Interleavings
import CoreReuse.Proofs.Index.Levels
import CoreReuse.Proofs.Index.Parallel
import CoreReuse.Proofs.Index.Snapshots
import CoreReuse.Proofs.Index.Stores
import CoreReuse.Proofs.Matching.Agreement
import CoreReuse.Proofs.Matching.Assignment
import CoreReuse.Proofs.Matching.Joining
import CoreReuse.Proofs.Matching.Joins
import CoreReuse.Proofs.Matching.Nameless
import CoreReuse.Proofs.Matching.Overflow
import CoreReuse.Proofs.Matching.Renamed
import CoreReuse.Proofs.Matching.Shadowing
import CoreReuse.Proofs.Matching.Slots
import CoreReuse.Proofs.Matching.Soundness
import CoreReuse.Proofs.Numbering
import CoreReuse.Proofs.Pipeline.Calls
import CoreReuse.Proofs.Pipeline.Runs
import CoreReuse.Proofs.Renamings
import CoreReuse.Proofs.Sampling
import CoreReuse.Proofs.Searches
import CoreReuse.Proofs.Structural
import CoreReuse.Proofs.Traversal
import CoreReuse.Proofs.Unguarded
import CoreReuse.Proofs.Unification
import CoreReuse.Proofs.Variables
import CoreReuse.Proofs.Variants
import CoreReuse.Proofs.Vocabulary
import CoreReuse.Proofs.Unions
import CoreReuse.Proofs.Matching.Instances
import CoreReuse.Proofs.Matching.Composed
import CoreReuse.Proofs.Matching.Oblivious
import CoreReuse.Proofs.Cache.Twins
import CoreReuse.Proofs.Cache.Interruption
import CoreReuse.Proofs.Workload.Families
import CoreReuse.Proofs.Workload.Generation
import CoreReuse.Proofs.Workload.Runs
import CoreReuse.Proofs.Workload.Synthesis
import CoreReuse.Proofs.Scoping
import CoreReuse.Proofs.Guarding
import CoreReuse.Proofs.Index.Blocks
import CoreReuse.Proofs.Index.Remainders
import CoreReuse.Proofs.Index.Founders
import CoreReuse.Fault
import CoreReuse.Random.Sampler
import CoreReuse.Proofs.Samplers
import CoreReuse.Proofs.Index.Grammar
import CoreReuse.Proofs.Index.RoundTrip
import CoreReuse.Proofs.Index.Faultless
import CoreReuse.Proofs.Polling
import CoreReuse.Proofs.Sums
import CoreReuse.Proofs.Headroom
import CoreReuse.Proofs.Cache.Stacks
import CoreReuse.Proofs.Cache.Feeds
import CoreReuse.Proofs.Cache.Counting
import CoreReuse.Proofs.Extensions
import CoreReuse.Proofs.Narrowing
import CoreReuse.Proofs.Listings
import CoreReuse.Proofs.Expansions
