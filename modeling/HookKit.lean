import HookKit.Lib.Block
import HookKit.Plan.Drafting
import HookKit.Plan.PrepareSteps
import HookKit.Plan.Chain
import HookKit.Plan.Original
import HookKit.Plan.Dependencies
import HookKit.Plan.Constraints
import HookKit.Plan.Staleness
import HookKit.Native.Arm64SelfReference
import HookKit.Plan.System
import HookKit.Plan.LedgerSteps
import HookKit.Plan.Honesty
import HookKit.Plan.Routing
import HookKit.Plan.CommitOrder
import HookKit.Core.OwnershipKeys
import HookKit.Resolvers.ExportTrie
import HookKit.Resolvers.ChainedSafety
import HookKit.Resolvers.MachOLoaded
import HookKit.Resolvers.CachePatchHistories
import HookKit.Resolvers.SymbolTable
import HookKit.Resolvers.MachOSlices
import HookKit.Resolvers.MachOListings
import HookKit.Resolvers.ImportSlots
import HookKit.Resolvers.MachOSpan
import HookKit.Resolvers.AddressSections
import HookKit.Core.ImageScope
import HookKit.Engines.RelocDetour
import HookKit.Engines.PageRuns
import HookKit.Engines.MemoryPatch
import HookKit.Engines.RebindChain
import HookKit.Engines.RebindRefusal
import HookKit.Compatibility.LegacyRoute
import HookKit.Native.CacheSymbols
import HookKit.Native.ProbeMemo
import HookKit.Engines.Optimistic
import HookKit.Native.SwiftSlots
import HookKit.Native.SwiftRuns
import HookKit.Engines.ObjC
import HookKit.Plan.PrepareCounts
import HookKit.Plan.CommitCounts
import HookKit.Plan.PlanStates
import HookKit.Plan.DomainGate
import HookKit.Plan.DomainBoundary
import HookKit.Plan.Concurrent
import HookKit.Plan.Overwrites
import HookKit.Plan.Linear
import HookKit.Resolvers.ExportTrieReads
import HookKit.Engines.StaticPool
import HookKit.Engines.RebindCaches
import HookKit.Plan.Coherent
import HookKit.Compatibility.LegacyRuns
import HookKit.Compatibility.LegacyHonesty
