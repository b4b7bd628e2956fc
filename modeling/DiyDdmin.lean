import DiyDdmin.Systems.Reach
import DiyDdmin.Numeric.Binary32
import DiyDdmin.Reduction.Cut
import DiyDdmin.Reduction.Partition
import DiyDdmin.Reduction.Restart
import DiyDdmin.Reduction.Count
import DiyDdmin.Reduction.Leftmost
import DiyDdmin.Posix.Paths
import DiyDdmin.Posix.Streams
import DiyDdmin.Posix.Requests
import DiyDdmin.Tester.Overflow
import DiyDdmin.Tester.Names
import DiyDdmin.Tester.Candidate
import DiyDdmin.Tester.Held
import DiyDdmin.Tester.Scan
import DiyDdmin.Tester.Copy
import DiyDdmin.Posix.Flow
import DiyDdmin.Tester.Blocks
import DiyDdmin.Ddmin.Refine
import DiyDdmin.Ddmin.Frame
import DiyDdmin.Ddmin.Runs
import DiyDdmin.Ddmin.Results
import DiyDdmin.Ddmin.Minimal
import DiyDdmin.Ddmin.Input
import DiyDdmin.Ddmin.Parts
import DiyDdmin.Ddmin.Halving
import DiyDdmin.Ddmin.Cost
import DiyDdmin.Ddmin.Dir
import DiyDdmin.Ddmin.Reads
import DiyDdmin.Increasing.Code
import DiyDdmin.Increasing.Abstract
import DiyDdmin.Increasing.Refine
import DiyDdmin.Increasing.Results
import DiyDdmin.Increasing.Input
import DiyDdmin.Increasing.Greedy
import DiyDdmin.Increasing.Cost
import DiyDdmin.Systems.WorkPool
import DiyDdmin.Systems.Segments
import DiyDdmin.Range.Code
import DiyDdmin.Range.Moves
import DiyDdmin.Range.Protocol
import DiyDdmin.Range.Jobs
import DiyDdmin.Range.Calls
import DiyDdmin.Range.Rounds
import DiyDdmin.Range.Ends
import DiyDdmin.Range.Frame
import DiyDdmin.Range.Results
import DiyDdmin.Range.Input
import DiyDdmin.Range.Failures
import DiyDdmin.Range.Capacity
import DiyDdmin.Range.Restart
import DiyDdmin.Range.Queue
import DiyDdmin.Range.Cost
import DiyDdmin.Range.Remains
import DiyDdmin.Range.Races
import DiyDdmin.Range.Counters
import DiyDdmin.Multithread.Partitions
import DiyDdmin.Multithread.Code
import DiyDdmin.Multithread.Scan
import DiyDdmin.Multithread.Rounds
import DiyDdmin.Multithread.Turns
import DiyDdmin.Minimizers
import DiyDdmin.Agreement
import DiyDdmin.Multithread.Results
import DiyDdmin.Multithread.Cost
import DiyDdmin.Candidates
import DiyDdmin.Runner.Fork
import DiyDdmin.Runner.Threads
import DiyDdmin.Runner.Timeout
