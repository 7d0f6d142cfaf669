import Longfellow.Algebra.LazySum
import Longfellow.Algebra.P256
import Longfellow.Algebra.RealFft
import Longfellow.Algebra.RoundPoly
import Longfellow.Algebra.SubfieldFft
import Longfellow.Proto.Archive
import Longfellow.Proto.SumcheckCodecs
import Longfellow.Random.HashTranscript
import Longfellow.Random.Sampler
import Longfellow.Circuit.DeltaTables
import Longfellow.Circuit.Identifier
import Longfellow.Circuit.UlebStream
import Longfellow.Merkle.Frontier
import Longfellow.SumcheckV1.TermOrder
import Longfellow.Ligero.Dimensions
import Longfellow.ZkV1.ConstraintCompiler
import Longfellow.ZkV2.Protocol
import Longfellow.Compile.Fates
import Longfellow.Compile.Segment
import Longfellow.Compile.Stripping
import Longfellow.Gadget.Adder
import Longfellow.Gadget.AnalogAdder
import Longfellow.Mdoc.DeviceAuthentication
import Longfellow.Mdoc.InputsV1
import Longfellow.Mdoc.Packing
import Longfellow.Mdoc.Validity
import Longfellow.CborV2.Sound
import Longfellow.Cpp.CircuitWriter
import Longfellow.Cpp.Transcript
import Longfellow.Ec.Group
