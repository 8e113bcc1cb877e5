import FixedIL.FloatFree
import FixedIL.Fixed
import FixedIL.LoweringError
import FixedIL.Native.Probe
import FixedIL.Convention.NativeCall
import FixedIL.Lowering.Sequence
import FixedIL.Pipeline
import FixedIL.Machine.Run
import FixedIL.CommandLine
import FixedIL.Main
import FixedIL.Proofs.DivisionByZero
import FixedIL.Proofs.FloatFreeCode
import FixedIL.Proofs.FunctionOrder
import FixedIL.Proofs.InstrCode
import FixedIL.Proofs.LoweredCalls
import FixedIL.Proofs.LiteralReads
import FixedIL.Proofs.LoweredDefinitions
import FixedIL.Proofs.LoweredFloats
import FixedIL.Proofs.LoweredTypes
import FixedIL.Proofs.LoweredUses
import FixedIL.Proofs.SequenceBits
import FixedIL.Proofs.UndefinedUses
import FixedIL.Proofs.PassRuns
import FixedIL.Proofs.PassStarts
import FixedIL.Proofs.WrittenReads
import FixedIL.Proofs.NormalRegisters
import FixedIL.Proofs.RegistryLookups
import FixedIL.Proofs.StepLimits
import FixedIL.Proofs.IntegerBits
import FixedIL.Proofs.ReturnConventions
import FixedIL.Proofs.DivisionAccuracy
import FixedIL.Proofs.ReturnLayouts
import FixedIL.Proofs.SquareRootAccuracy
import FixedIL.Proofs.ColorGamut
import FixedIL.Proofs.TurnPeriod
import FixedIL.Proofs.FloatCheck
import FixedIL.Proofs.CallChecks
import FixedIL.Proofs.PrototypeReading
import FixedIL.Proofs.FlatSignatures
import FixedIL.Proofs.StackMemory
import FixedIL.Proofs.FreshIds
import FixedIL.Proofs.ReferenceLanes
import FixedIL.Proofs.Refinement
import FixedIL.Proofs.UniqueReading
