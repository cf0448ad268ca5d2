import HyUtils.Foundation.Run
import HyUtils.Foundation.Words
import HyUtils.Foundation.Region
import HyUtils.Foundation.Rings
import HyUtils.Foundation.Ring
import HyUtils.Foundation.Hanging
import HyUtils.Foundation.BoundedQueue
import HyUtils.Foundation.LittleEndian
import HyUtils.Foundation.Cyclic
import HyUtils.Foundation.SavedSuccessor
import HyUtils.Foundation.SineDigits
import HyUtils.Foundation.Transfer
import HyUtils.Foundation.FileTree
import HyUtils.Foundation.Lists
import HyUtils.Foundation.Decimal
import HyUtils.Foundation.Scanf
import HyUtils.Foundation.Delivery
import HyUtils.Fifo.Model
import HyUtils.Fifo.Invariant
import HyUtils.Fifo.Refinement
import HyUtils.Fifo.Info
import HyUtils.Fifo.Lengths
import HyUtils.Fifo.Threads
import HyUtils.Fifo.Stream
import HyUtils.Fifo.UseCount
import HyUtils.Foundation.HexText
import HyUtils.Fifo.Dump
import HyUtils.Thread.Model
import HyUtils.Thread.Lifecycle
import HyUtils.Thread.Calls
import HyUtils.NetWired.Model
import HyUtils.NetWired.Records
import HyUtils.NetWired.Blink
import HyUtils.NetWired.Latest
import HyUtils.NetWired.Module
import HyUtils.HyList.Model
import HyUtils.HyList.Spec
import HyUtils.HyList.Traverse
import HyUtils.HyList.Lists
import HyUtils.HyList.Refinement
import HyUtils.HyList.Hlist
import HyUtils.TimerWheel.Model
import HyUtils.TimerWheel.Invariant
import HyUtils.TimerWheel.Walk
import HyUtils.TimerWheel.Fate
import HyUtils.TimerWheel.Once
import HyUtils.TimerWheel.Delay
import HyUtils.TimerWheel.Ledger
import HyUtils.TimerWheel.Handles
import HyUtils.TimerWheel.Lifetime
import HyUtils.TimerWheel.Reentrancy
import HyUtils.TimerWheel.Pointers
import HyUtils.TimerWheel.Linked
import HyUtils.TimerWheel.LinkedWheel
import HyUtils.Str.CopyRight
import HyUtils.Str.Bounds
import HyUtils.Dir.Model
import HyUtils.Dir.Recurse
import HyUtils.Dir.Agree
import HyUtils.Dir.Filter
import HyUtils.Utils.ReadWrite
import HyUtils.Utils.Convert
import HyUtils.Utils.Overrun
import HyUtils.Utils.RoundTrip
import HyUtils.Utils.Address
import HyUtils.Module.RunCreate
import HyUtils.Cjson.Model
import HyUtils.Cjson.Path
import HyUtils.Cjson.Resolve
import HyUtils.Cjson.File
import HyUtils.AtUtils.Model
import HyUtils.AtUtils.Steps
import HyUtils.AtUtils.Head
import HyUtils.AtUtils.Ipd
import HyUtils.AtUtils.Chunks
import HyUtils.AtUtils.Whole
import HyUtils.AtUtils.Retry
import HyUtils.AtUtils.Outstanding
import HyUtils.AtUtils.Queue
import HyUtils.AtUtils.FrameBuffer
import HyUtils.AtUtils.Standstill
import HyUtils.AtUtils.IpdBounds
import HyUtils.Foundation.Chains
import HyUtils.Hash.Model
import HyUtils.Hash.Items
import HyUtils.Hash.Map
import HyUtils.Hash.Frame
import HyUtils.Hash.Values
import HyUtils.Hash.Concurrent
import HyUtils.Hash.Pointers
import HyUtils.Hash.Linked
import HyUtils.Foundation.Snprintf
import HyUtils.Log.Model
import HyUtils.Log.Bounds
import HyUtils.Log.Hex
import HyUtils.Foundation.Items
import HyUtils.Foundation.Rearrange
import HyUtils.Sort.Model
import HyUtils.Sort.Access
import HyUtils.Sort.Bubble
import HyUtils.Sort.Partition
import HyUtils.Sort.Quick
import HyUtils.Sort.Failures
import HyUtils.Foundation.Traced
import HyUtils.Sort.Offsets
import HyUtils.Md5.Spec
import HyUtils.Md5.Model
import HyUtils.Md5.Padding
import HyUtils.Md5.Rounds
import HyUtils.Md5.Digest
import HyUtils.NetWired.ModuleLife
