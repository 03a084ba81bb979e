import Nballerina.Bir.VerifyFlow
import Nballerina.CodeGen.LValue
import Nballerina.CodeGen.ShortCircuit
import Nballerina.Front.ArrayLengths
import Nballerina.Front.Bitwise
import Nballerina.Front.MappingConstructor
import Nballerina.Nback.Compare
import Nballerina.Nback.FunctionTest
import Nballerina.Nback.Number
import Nballerina.Nback.SubtypeStruct
import Nballerina.Nback.SymbolRoundTrip
import Nballerina.Nback.TypeTest
import Nballerina.PrintLlvm.Body
import Nballerina.Runtime.Array
import Nballerina.Runtime.ListOrder
import Nballerina.Sexpr.Comments
import Nballerina.Syntax.Moves
import Nballerina.Syntax.Peek
import Nballerina.Syntax.StringLiteral
import Nballerina.Types.BddTermination
import Nballerina.Types.Definitions
import Nballerina.Types.EmptinessTermination
import Nballerina.Types.ErrorExact
import Nballerina.Types.FunctionApply
import Nballerina.Types.ListProjSound
import Nballerina.Types.Xml
