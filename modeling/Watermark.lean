import Watermark.Reasoning.System
import Watermark.Reasoning.Runs
import Watermark.Reasoning.Threads
import Watermark.Reasoning.Search
import Watermark.Reasoning.Clock
import Watermark.Reasoning.CellWork
import Watermark.Reasoning.Balanced
import Watermark.Reasoning.Tokens
import Watermark.Reasoning.Pipeline
import Watermark.Reasoning.Closing
import Watermark.Reasoning.Lanes
import Watermark.Reasoning.Tally
import Watermark.Reasoning.Pieces
import Watermark.Reasoning.Simulation
import Watermark.Reasoning.Timed
import Watermark.Reasoning.Ring
import Watermark.Reasoning.Fifo
import Watermark.Reasoning.Linked
import Watermark.CImg.Buffer
import Watermark.Marking.Visit
import Watermark.Marking.Loop
import Watermark.Marking.Thread
import Watermark.Marking.Parts
import Watermark.Marking.Bounds
import Watermark.Util.Queue
import Watermark.Util.BlockingQueue
import Watermark.Util.Title
import Watermark.Util.DirectoryScan
import Watermark.Util.ActiveDelay
import Watermark.Sequential
import Watermark.Farm.Model
import Watermark.Farm.InsertedDelay
import Watermark.Farm.Invariant
import Watermark.Farm.Delivery
import Watermark.Farm.Progress
import Watermark.Farm.ServiceTime
import Watermark.Farm.ParallelTime
import Watermark.Farm.Clocked
import Watermark.Farm.CompletionTime
import Watermark.Map.Model
import Watermark.Map.Invariant
import Watermark.Map.Delivery
import Watermark.Map.Refinement
import Watermark.Map.Progress
import Watermark.Map.Clocked
import Watermark.Map.CompletionTime
import Watermark.Map.Waiting
import Watermark.Report
import Watermark.FastFlow.Skeleton
import Watermark.FastFlow.Invariant
import Watermark.FastFlow.Farm
import Watermark.FastFlow.Map
import Watermark.FastFlow.Agreement
import Watermark.FastFlow.Timing
import Watermark.FastFlow.ServiceTime
import Watermark.FastFlow.Channel.Buffer
import Watermark.FastFlow.Channel.UBuffer
import Watermark.FastFlow.Channel.Chain
import Watermark.FastFlow.Channel.Order
import Watermark.FastFlow.Channel.DynQueue
import Watermark.FastFlow.Barrier
import Watermark.FastFlow.Network.Model
import Watermark.FastFlow.Network.Step
import Watermark.FastFlow.Network.Lanes
import Watermark.FastFlow.Network.Refinement
import Watermark.FastFlow.Network.Ending
import Watermark.FastFlow.Network.Progress
import Watermark.FastFlow.Network.Agreement
import Watermark.FastFlow.Network.Order
import Watermark.FastFlow.Network.CompletionTime
import Watermark.FastFlow.Network.Start
