import HellRs.Types.Unifier
import HellRs.Types.Kinding
import HellRs.Lib.Unification
import HellRs.Types.ClosedTypes
import HellRs.Core.BuiltinTypes
import HellRs.Runtime.Budget
import HellRs.Runtime.LifeCycle
import HellRs.Runtime.FileHandle
import HellRs.Collections.Reachable
import HellRs.Collections.Reviewed
import HellRs.Collections.FromLists
import HellRs.Lists.Sorting
import HellRs.Scope.Close
import HellRs.Scope.Schedule
import HellRs.Scope.Admission
import HellRs.Compiler.Hygiene
import HellRs.Runtime.ShowLiteral
import HellRs.Http.Delivery
import HellRs.Json.NumberText
import HellRs.Instances.Evidence
import HellRs.Runtime.Counters
import HellRs.Concurrency.Timeout
import HellRs.Concurrency.Pair
import HellRs.Concurrency.Pool
import HellRs.Concurrency.PoolProgress
import HellRs.Process.Outcome
import HellRs.Integer.DecimalText
import HellRs.Time.UtcText
import HellRs.Double.Rounding
import HellRs.Time.Picoseconds
import HellRs.Syntax.TokenPositions
import HellRs.Http.HostCancellation
import HellRs.Lists.NubOrd
import HellRs.Digest.Standard
import HellRs.StrictToml.StringArrays
import HellRs.Classes.Reference
import HellRs.Http.Targets
import HellRs.Lists.Combinatorial
import HellRs.Options.Order
import HellRs.Compiler.Literals
import HellRs.Testkit.Capture
import HellRs.Evidence.Base64
import HellRs.Http.Responses
import HellRs.Lists.LazySplit
import HellRs.Lists.LazySharing
import HellRs.Evidence.Json
import HellRs.Evidence.JsonSyntax
import HellRs.Evidence.JsonRecord
import HellRs.Evidence.JsonCanonical
import HellRs.Evidence.JsonAccepted
import HellRs.Evidence.JsonRoundTrip
import HellRs.Testkit.Diagnostics
import HellRs.Testkit.Occurrences
import HellRs.Testkit.Lines
import HellRs.Testkit.Idempotence
import HellRs.Testkit.Normalizers
