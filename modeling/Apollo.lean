import Apollo.Cyber.Base.AtomicHashMapValues
import Apollo.Cyber.Base.BoundedQueue
import Apollo.Cyber.Base.ObjectPool
import Apollo.Cyber.Base.ReentrantRWLock
import Apollo.Cyber.Common.TimeConversion
import Apollo.Cyber.Data.AllLatest
import Apollo.Cyber.Io.PollHandler
import Apollo.Cyber.Logger.AsyncLogger
import Apollo.Cyber.Record.RecordViewerRounds
import Apollo.Cyber.Record.RecordWriterFailures
import Apollo.Cyber.Scheduler.Choreography
import Apollo.Cyber.Scheduler.ClassicTurns
import Apollo.Cyber.Service.Client
import Apollo.Cyber.ServiceDiscovery.ChannelManager
import Apollo.Cyber.Task.TaskManager
import Apollo.Cyber.Timer.TimingWheel
import Apollo.Cyber.Transport.Message.ListenerHandler
import Apollo.Cyber.Transport.Shm.ConditionNotifier
import Apollo.Cyber.Transport.Shm.SegmentMapping
import Apollo.Modules.Common.Math.AABoxKDTree2dTermination
import Apollo.Modules.Common.Math.Box2dDistance
import Apollo.Modules.Common.Math.CartesianFrenetConversion
import Apollo.Modules.Common.Math.MpcSolver
import Apollo.Modules.Common.Util.Base64
import Apollo.Modules.Common.Util.DisjointSet
import Apollo.Modules.Map.PncMap.PathApproximationExact
import Apollo.Modules.Map.PncMap.PncMap
import Apollo.Modules.Planning.Common.ObstacleDecision
import Apollo.Modules.Planning.Common.SpeedProfileGenerator
import Apollo.Modules.Planning.Common.Trajectory.DiscretizedTrajectory
import Apollo.Modules.Planning.Common.Trajectory1d.PiecewiseAccelerationTrajectory1d
import Apollo.Modules.Planning.Lattice.TrajectoryGeneration.EndConditionSampler
import Apollo.Modules.Planning.Math.Curve1d.PolynomialCurve1d
import Apollo.Modules.Planning.Math.PiecewiseJerk.PiecewiseJerkPathSpeed
import Apollo.Modules.Planning.OpenSpace.CoarseTrajectoryGenerator.HybridAStarTermination
import Apollo.Modules.Planning.OpenSpace.CoarseTrajectoryGenerator.ReedsSheppPath
import Apollo.Modules.Planning.OpenSpace.TrajectorySmoother.DualVariableWarmStartJacobian
import Apollo.Modules.Planning.OpenSpace.TrajectorySmoother.DualVariableWarmStartOSQP
import Apollo.Modules.Planning.OpenSpace.TrajectorySmoother.IterativeAnchoringSmoother
import Apollo.Modules.Planning.ReferenceLine.ReferenceLine
import Apollo.Modules.Planning.ReferenceLine.SpeedLimits
