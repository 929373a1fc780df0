import Tclm.Lib.Basic
import Tclm.Lib.SortedList
import Tclm.Lib.NamedTree
import Tclm.Lib.TreeEdit
import Tclm.Lib.TreeListing
import Tclm.Lib.Trace
import Tclm.Lib.Descent
import Tclm.Lib.Simulation
import Tclm.Lib.ByteOrder
import Tclm.Lib.Memory
import Tclm.Comm.Ringbuffer
import Tclm.Comm.RingbufferGrowth
import Tclm.Comm.Stream
import Tclm.Comm.Fields
import Tclm.Comm.Connection
import Tclm.Comm.Sending
import Tclm.Comm.Threads
import Tclm.Comm.Attention
import Tclm.Comm.Contention
import Tclm.Comm.Framing
import Tclm.Comm.Messages
import Tclm.Comm.Link
import Tclm.Server.Lock
import Tclm.Server.LockForest
import Tclm.Server.Backend
import Tclm.Server.AcquireSpec
import Tclm.Server.ReleaseSpec
import Tclm.Server.Placement
import Tclm.Server.Draining
import Tclm.Server.Ledger
import Tclm.Server.Coverage
import Tclm.Server.Compat
import Tclm.Server.Growth
import Tclm.Server.ForestSpec
import Tclm.Server.Runs
import Tclm.Server.Ids
import Tclm.Server.Safety
import Tclm.Server.Requests
import Tclm.Server.Withdrawal
import Tclm.Server.Waiting
import Tclm.Server.Reversal
import Tclm.Server.Balance
import Tclm.Server.Cleanup
import Tclm.Server.Termination
import Tclm.Server.Spelling
import Tclm.Server.Failure
import Tclm.Server.Frame
import Tclm.Server.Commute
import Tclm.Server.Creation
import Tclm.Server.Daemon
import Tclm.Server.Attempts
import Tclm.Server.Structure
import Tclm.Server.Decoding
import Tclm.Server.Paths
import Tclm.Server.Listing
import Tclm.Server.Replies
import Tclm.Server.Capacity
import Tclm.Server.Names
import Tclm.Server.Serving
import Tclm.Server.FollowUp
import Tclm.Server.Grants
import Tclm.Server.Shares
import Tclm.Server.Exchange
import Tclm.Server.Progress
import Tclm.Server.Leaving
import Tclm.Client.AccessConcentrator
import Tclm.Client.Session
import Tclm.Client.Library
import Tclm.Client.Beliefs
import Tclm.Manager.Responses
import Tclm.Manager.Termination
import Tclm.System.Codec
import Tclm.System.Fields
import Tclm.System.Listings
import Tclm.System.Beliefs
import Tclm.System.Cluster
import Tclm.System.Seats
import Tclm.System.Considerate
import Tclm.System.Deployment
import Tclm.System.Guarantees
import Tclm.System.Liveness
