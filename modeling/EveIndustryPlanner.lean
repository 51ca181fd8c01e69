import EveIndustryPlanner.Fault
import EveIndustryPlanner.Lib.Pod
import EveIndustryPlanner.Lib.Drain
import EveIndustryPlanner.Lib.SortedDiff
import EveIndustryPlanner.Lib.Network
import EveIndustryPlanner.Lib.Latest
import EveIndustryPlanner.Lib.Collect
import EveIndustryPlanner.Lib.Decimal
import EveIndustryPlanner.Lib.Replay
import EveIndustryPlanner.Lib.Steps
import EveIndustryPlanner.Lib.Worker
import EveIndustryPlanner.Lib.Table
import EveIndustryPlanner.Lib.CircularBuffer
import EveIndustryPlanner.Lib.Rounding
import EveIndustryPlanner.Lib.Extremum
import EveIndustryPlanner.Lib.DenseProgram
import EveIndustryPlanner.Lib.Trade
import EveIndustryPlanner.Lib.Fields
import EveIndustryPlanner.Lib.Placement
import EveIndustryPlanner.Lib.Fill
import EveIndustryPlanner.Lib.Tally
import EveIndustryPlanner.Lib.Memo
import EveIndustryPlanner.Lib.Monitor
import EveIndustryPlanner.Lib.Chase
import EveIndustryPlanner.Lib.Agree
import EveIndustryPlanner.Lib.Intern
import EveIndustryPlanner.Lib.JsonNumber
import EveIndustryPlanner.Lib.JsonText
import EveIndustryPlanner.Lib.JsonReading
import EveIndustryPlanner.Lib.SixDigits
import EveIndustryPlanner.Lib.IdTable
import EveIndustryPlanner.Lib.Attempt
import EveIndustryPlanner.Lib.Multimap
import EveIndustryPlanner.Lib.Pool
import EveIndustryPlanner.Lib.Groups
import EveIndustryPlanner.Lib.Records
import EveIndustryPlanner.Lib.PythonText
import EveIndustryPlanner.Lib.BinarySearch
import EveIndustryPlanner.Lib.Worklist
import EveIndustryPlanner.Pricing.Order
import EveIndustryPlanner.Pricing.Reader
import EveIndustryPlanner.Pricing.Book
import EveIndustryPlanner.Pricing.RoundTrip
import EveIndustryPlanner.Pricing.Views
import EveIndustryPlanner.Pricing.Framing
import EveIndustryPlanner.Pricing.SelfCheck
import EveIndustryPlanner.Pricing.Replay
import EveIndustryPlanner.Pricing.Pending
import EveIndustryPlanner.Pricing.Ownership
import EveIndustryPlanner.Pricing.Addressing
import EveIndustryPlanner.Pricing.Benchmark
import EveIndustryPlanner.Pricing.JsonOrder
import EveIndustryPlanner.Pricing.Archive
import EveIndustryPlanner.Pricing.Volumes
import EveIndustryPlanner.Pricing.Diffs
import EveIndustryPlanner.Pricing.Samples
import EveIndustryPlanner.Pricing.FileNames
import EveIndustryPlanner.ArchiveReader.PerType
import EveIndustryPlanner.ObjdumpToCfg.Blocks
import EveIndustryPlanner.ObjdumpToCfg.Exploration
import EveIndustryPlanner.Planning.Planner
import EveIndustryPlanner.Planning.Surplus
import EveIndustryPlanner.Planning.Rows
import EveIndustryPlanner.Planning.Lists
import EveIndustryPlanner.Emdr.HaulData
import EveIndustryPlanner.Emdr.Staleness
import EveIndustryPlanner.Emdr.Draining
import EveIndustryPlanner.Emdr.Stations
import EveIndustryPlanner.Emdr.HaulProgram
import EveIndustryPlanner.Emdr.HaulAssembly
import EveIndustryPlanner.Emdr.HaulPrefilter
import EveIndustryPlanner.Emdr.HaulEncoding
import EveIndustryPlanner.Emdr.HaulSolution
import EveIndustryPlanner.Emdr.PrintJson
import EveIndustryPlanner.Emdr.Messages
import EveIndustryPlanner.Emdr.MessageStore
import EveIndustryPlanner.Emdr.StoredMessages
import EveIndustryPlanner.Emdr.Insertions
import EveIndustryPlanner.Emdr.MessageRuns
import EveIndustryPlanner.Industry.Inventions
import EveIndustryPlanner.Industry.Workspace
import EveIndustryPlanner.Industry.Manufacturing
import EveIndustryPlanner.Industry.Generators
import EveIndustryPlanner.Industry.Accepted
import EveIndustryPlanner.Industry.TypeClasses
import EveIndustryPlanner.Industry.JobValues
import EveIndustryPlanner.Industry.OwnedBPCs
import EveIndustryPlanner.Industry.CopyRequests
import EveIndustryPlanner.Industry.Schematics
import EveIndustryPlanner.Industry.PlanetaryJobs
import EveIndustryPlanner.Industry.ResourceNames
import EveIndustryPlanner.Industry.ResourceObjects
import EveIndustryPlanner.Industry.Shopping
import EveIndustryPlanner.Market.Barrier
import EveIndustryPlanner.Market.Outdated
import EveIndustryPlanner.Market.PriceUpdates
import EveIndustryPlanner.Market.Semaphore
import EveIndustryPlanner.Market.Redirects
import EveIndustryPlanner.Market.RequestGroup
import EveIndustryPlanner.Market.OrderUpdates
import EveIndustryPlanner.Market.OrderRuns
