import Art.BoundsCheck.TwoIndexes
import Art.ClassLoaderContext.RoundTrip
import Art.Dominators.Exact
import Art.FreeListSpace.Runs
import Art.Graph.LinearOrderRuns
import Art.Graph.Reachability
import Art.InductionVar.LastValue
import Art.InductionVar.Periodic
import Art.InductionVar.TripCount
import Art.MarkCompact.Compact
import Art.ParallelMove.Values
import Art.Profile.Load
import Art.Profile.MergeInPlace
import Art.RegionSpace.Runs
import Art.StackMap.Deduper
import Art.StackMap.RoundTrip
import Art.StackMap.TableRoundTrip
import Art.SubtypeCheck.Tree
import Art.Transaction.Rollback
import Art.Utf.Compare
import Art.Verifier.FillArrayData
import Art.DexFile.CompactCodeItem
import Art.DexFile.CreateTypeList
import Art.DexFile.StringData
import Art.Verifier.Bounds
import Art.Verifier.RegisterLine
import Art.BoundsCheck.ArrayAlias
import Art.InstructionSimplifier.Rotate
import Art.Dwarf.DebugLine
