import OrbitCache.Controller.Agreement
import OrbitCache.Controller.Dynamic
import OrbitCache.Controller.Fetch
import OrbitCache.Controller.Header
import OrbitCache.Controller.Intake
import OrbitCache.Controller.Reports
import OrbitCache.Controller.Selection
import OrbitCache.Controller.Static
import OrbitCache.Controller.Text
import OrbitCache.Host.Client
import OrbitCache.Host.Draw
import OrbitCache.Host.Heapify
import OrbitCache.Host.Heaviest
import OrbitCache.Host.Limiter
import OrbitCache.Host.LossRate
import OrbitCache.Host.Placement
import OrbitCache.Host.Range
import OrbitCache.Host.Refinement
import OrbitCache.Host.Reporting
import OrbitCache.Host.Sequence
import OrbitCache.Host.Server
import OrbitCache.Host.Sketch
import OrbitCache.Host.StartUp
import OrbitCache.Host.Tally
import OrbitCache.Lib.Channel
import OrbitCache.Lib.Endian
import OrbitCache.Lib.Framing
import OrbitCache.Lib.Heapq
import OrbitCache.Lib.Histogram
import OrbitCache.Lib.LinearHash
import OrbitCache.Lib.Linked
import OrbitCache.Lib.OnesComplement
import OrbitCache.Lib.Ring
import OrbitCache.Lib.Run
import OrbitCache.Lib.Search
import OrbitCache.Lib.Selection
import OrbitCache.Lib.Simulation
import OrbitCache.Lib.Window
import OrbitCache.Netcache.Bytes
import OrbitCache.Netcache.Cluster
import OrbitCache.Netcache.Controller
import OrbitCache.Netcache.Delivery
import OrbitCache.Netcache.Wire
import OrbitCache.Switch.Answer
import OrbitCache.Switch.Fifo
import OrbitCache.System.Allocator
import OrbitCache.System.Coherence
import OrbitCache.System.Correction
import OrbitCache.System.Dynamic
import OrbitCache.System.Eviction
import OrbitCache.System.Items
import OrbitCache.System.MissRate
import OrbitCache.System.Stranded
import OrbitCache.System.Traffic
import OrbitCache.Tommy.Balance
import OrbitCache.Tommy.Hash
import OrbitCache.Tommy.Hashlin
import OrbitCache.Tommy.List
import OrbitCache.Tommy.Resize
import OrbitCache.Tommy.Runs
import OrbitCache.Tommy.Segments
import OrbitCache.Tommy.Store
import OrbitCache.Tommy.Table
import OrbitCache.Tommy.Worker
