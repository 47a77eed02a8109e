import GTPower.ArcDelayLayout
import GTPower.ArrayTables
import GTPower.ArrivalPaths
import GTPower.CellPorts
import GTPower.CommonClockPin
import GTPower.CpuParallel
import GTPower.CrprPruning
import GTPower.CycleSeparation
import GTPower.CyclesPerThread
import GTPower.DriverCache
import GTPower.EdgeLists
import GTPower.ElmoreDelays
import GTPower.EquivSets
import GTPower.FilterCleanup
import GTPower.FsdbSlices
import GTPower.FuncRoundTrip
import GTPower.GlitchFlags
import GTPower.InstancePower
import GTPower.LeakageTable
import GTPower.LevelOrder
import GTPower.LibertyInsts
import GTPower.Parasitics
import GTPower.PathEnums
import GTPower.PathGroupRuns
import GTPower.PathNames
import GTPower.PatternMatch
import GTPower.PinIndexing
import GTPower.PointHashes
import GTPower.ResetCoverage
import GTPower.ResultReuse
import GTPower.ScopedNames
import GTPower.SimEnds
import GTPower.SimRuns
import GTPower.SpefSections
import GTPower.StateMatching
import GTPower.TableAccesses
import GTPower.TableAgreement
import GTPower.TotalSlack
import GTPower.VarActivity
import GTPower.VerilogNames
import GTPower.WaveformPointers
import GTPower.WaveformReport
import GTPower.WorkloadReport
