import PaxosLog.Cluster
import PaxosLog.Random.Pool
import PaxosLog.Replica.Bench
import PaxosLog.Site.Calls
import PaxosLog.Wire
import PaxosLog.Proofs.Log.Join
import PaxosLog.Proofs.Log.Requests
import PaxosLog.Proofs.Replica.Move
import PaxosLog.Proofs.Replica.Carry
import PaxosLog.Proofs.Replica.Change
import PaxosLog.Proofs.Replica.Tidy
import PaxosLog.Proofs.Network
import PaxosLog.Proofs.Network.Order
import PaxosLog.Proofs.Network.Voting
import PaxosLog.Proofs.Network.Backing
import PaxosLog.Proofs.Network.Past
import PaxosLog.Proofs.Chosen
import PaxosLog.Proofs.Leadership
import PaxosLog.Proofs.Network.Choosing
import PaxosLog.Proofs.Replica.Tally
import PaxosLog.Proofs.Tally
import PaxosLog.Proofs.Agreement
import PaxosLog.Proofs.Replica.Limits
import PaxosLog.Proofs.Replica.Rest
import PaxosLog.Proofs.Replica.Run
import PaxosLog.Proofs.Execution
import PaxosLog.Proofs.Conservation
import PaxosLog.Proofs.Replica.Source
import PaxosLog.Proofs.Network.Member
import PaxosLog.Proofs.Replies
import PaxosLog.Proofs.Network.Herald
import PaxosLog.Proofs.Network.Delivery
import PaxosLog.Proofs.Quiescence
import PaxosLog.Proofs.Outstanding
import PaxosLog.Proofs.Frozen
import PaxosLog.Proofs.Transfer
import PaxosLog.Proofs.Replica.Ledger
import PaxosLog.Proofs.Network.Solo
import PaxosLog.Proofs.SoleProposer
import PaxosLog.Proofs.Promises
import PaxosLog.Proofs.Log.Covers
import PaxosLog.Proofs.Replica.Absorb
import PaxosLog.Proofs.Replica.Authentic
import PaxosLog.Proofs.Redelivery
import PaxosLog.Proofs.Headroom
import PaxosLog.Proofs.Json.Numeral
import PaxosLog.Proofs.Json.Scan
import PaxosLog.Proofs.Wire
import PaxosLog.Proofs.Json.Split
import PaxosLog.Proofs.Merging
import PaxosLog.Proofs.Wire.Extent
import PaxosLog.Proofs.Framing
import PaxosLog.Proofs.Wire.Values
import PaxosLog.Proofs.Wire.Spelled
import PaxosLog.Proofs.Spelling
import PaxosLog.Proofs.Replica.Proposals
import PaxosLog.Proofs.TakingOver
import PaxosLog.Proofs.Intersection
import PaxosLog.Proofs.Replica.Placements
import PaxosLog.Proofs.SubmissionOrder
import PaxosLog.Proofs.Learning
import PaxosLog.Proofs.Replica.Counting
import PaxosLog.Proofs.Counting
import PaxosLog.Proofs.SingleReplica
import PaxosLog.Proofs.Site.Acts
import PaxosLog.Proofs.Site.Course
import PaxosLog.Proofs.Site.Turns
import PaxosLog.Proofs.OutstandingDelay
import PaxosLog.Proofs.Site.Custody
import PaxosLog.Proofs.Stopping
import PaxosLog.Proofs.Transport
import PaxosLog.Proofs.LogShape
import PaxosLog.Proofs.DelayWindow
import PaxosLog.Proofs.SharedStreams
import PaxosLog.Proofs.Wire.Refusal
import PaxosLog.Proofs.Wire.Exact
import PaxosLog.Proofs.Wire.Keys
import PaxosLog.Proofs.ExactNumbers
import PaxosLog.Proofs.Network.Extends
import PaxosLog.Proofs.Network.Scheduler
import PaxosLog.Proofs.Replica.Bench
