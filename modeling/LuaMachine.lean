import LuaMachine.Proofs.AssignmentChains
import LuaMachine.Proofs.BalancedCalls
import LuaMachine.Proofs.CallResolution
import LuaMachine.Proofs.Concatenation
import LuaMachine.Proofs.ErrorContract
import LuaMachine.Proofs.ExactComparison
import LuaMachine.Proofs.FloatTexts
import LuaMachine.Proofs.FloorModulo
import LuaMachine.Proofs.FramePool
import LuaMachine.Proofs.HexadecimalFloats
import LuaMachine.Proofs.Isolation
import LuaMachine.Proofs.KeyEquality
import LuaMachine.Proofs.ListedConditions
import LuaMachine.Proofs.NoLeaks
import LuaMachine.Proofs.ReturnedResults
import LuaMachine.Proofs.SharedVariables
import LuaMachine.Proofs.StackGrowth
import LuaMachine.Proofs.TableBorder
import LuaMachine.Proofs.TailCallCounts
import LuaMachine.Proofs.TailCallDepth
import LuaMachine.Proofs.Tracing
import LuaMachine.Proofs.UnaryOperands
import LuaMachine.Proofs.UnorderedLimits
import LuaMachine.Proofs.Varargs
import LuaMachine.Value.Convert
import LuaMachine.Value.Describe
