import ThymioDeviceManager.Library.Outcome
import ThymioDeviceManager.Library.Stateful
import ThymioDeviceManager.Library.OrderedMap
import ThymioDeviceManager.Library.Wrap
import ThymioDeviceManager.Library.Iterate
import ThymioDeviceManager.Library.Realise
import ThymioDeviceManager.Compiler.Consts
import ThymioDeviceManager.Compiler.Description
import ThymioDeviceManager.Compiler.Tree
import ThymioDeviceManager.Compiler.State
import ThymioDeviceManager.Compiler.TypeCheck
import ThymioDeviceManager.Compiler.Optimize
import ThymioDeviceManager.Compiler.Expand
import ThymioDeviceManager.Library.Framing
import ThymioDeviceManager.Compiler.Bytecode
import ThymioDeviceManager.Compiler.Emit
import ThymioDeviceManager.Compiler.Link
import ThymioDeviceManager.Compiler.Lexer
import ThymioDeviceManager.Compiler.Parser
import ThymioDeviceManager.Compiler.Compile
import ThymioDeviceManager.Machine.Arithmetic
import ThymioDeviceManager.Machine.Instruction
import ThymioDeviceManager.Machine.Program
import ThymioDeviceManager.Machine.Execution
import ThymioDeviceManager.Compiler.Assembly
import ThymioDeviceManager.Compiler.Vectors
import ThymioDeviceManager.Machine.ControlFlow
import ThymioDeviceManager.Correctness.ControlFlow
import ThymioDeviceManager.Correctness.Linking
import ThymioDeviceManager.Correctness.CodePlacement
import ThymioDeviceManager.Correctness.Operands
import ThymioDeviceManager.Semantics.Expression
import ThymioDeviceManager.Semantics.Statement
import ThymioDeviceManager.Semantics.Vector
import ThymioDeviceManager.Correctness.Expressions
import ThymioDeviceManager.Correctness.Statements
import ThymioDeviceManager.Correctness.CodeGeneration
import ThymioDeviceManager.Correctness.VectorStatements
import ThymioDeviceManager.Library.Hoare
import ThymioDeviceManager.Correctness.Parsing
import ThymioDeviceManager.Library.Transition
import ThymioDeviceManager.Manager.WriteQueue
import ThymioDeviceManager.Correctness.DeviceWrites
import ThymioDeviceManager.Manager.ApplicationQueue
import ThymioDeviceManager.Correctness.ApplicationSessions
import ThymioDeviceManager.Library.Table
import ThymioDeviceManager.Manager.Network
import ThymioDeviceManager.Correctness.Locking
import ThymioDeviceManager.Correctness.LockRelease
import ThymioDeviceManager.Manager.Programs
import ThymioDeviceManager.Correctness.ProgramLoading
import ThymioDeviceManager.Manager.Descriptions
import ThymioDeviceManager.Correctness.DescriptionProtocol
import ThymioDeviceManager.Correctness.Operators
import ThymioDeviceManager.Correctness.SubroutineNumbers
import ThymioDeviceManager.Correctness.MemorySafety
import ThymioDeviceManager.Correctness.TargetLimits
import ThymioDeviceManager.Correctness.SingleWriter
import ThymioDeviceManager.Correctness.Debugging
import ThymioDeviceManager.Correctness.Breakpoints
import ThymioDeviceManager.Correctness.GroupMembership
import ThymioDeviceManager.Correctness.SharedConstants
import ThymioDeviceManager.Correctness.EventEmission
import ThymioDeviceManager.Library.Codec
import ThymioDeviceManager.Library.Correspondence
import ThymioDeviceManager.Protocol.Text
import ThymioDeviceManager.Protocol.IntelHex
import ThymioDeviceManager.Protocol.Message
import ThymioDeviceManager.Correctness.MessageCodec
import ThymioDeviceManager.Correctness.MessageRoundTrip
import ThymioDeviceManager.Correctness.MessageDecoding
import ThymioDeviceManager.Protocol.MessageStream
import ThymioDeviceManager.Correctness.MessageStream
import ThymioDeviceManager.Correctness.PacketSizes
import ThymioDeviceManager.Correctness.ParserSteps
import ThymioDeviceManager.Semantics.Formula
import ThymioDeviceManager.Correctness.ExpressionPrinting
import ThymioDeviceManager.Correctness.EventNumbering
import ThymioDeviceManager.Library.LongestChain
import ThymioDeviceManager.Correctness.CallDepths
import ThymioDeviceManager.Semantics.ForLoop
import ThymioDeviceManager.Correctness.ForLoops
import ThymioDeviceManager.Manager.FirmwareUpgrade
import ThymioDeviceManager.Correctness.FirmwareUpgrade
import ThymioDeviceManager.Correctness.RegistryConsistency
import ThymioDeviceManager.Correctness.ConnectedNodes
import ThymioDeviceManager.Correctness.DuplicateEviction
import ThymioDeviceManager.Correctness.ChangeNotifications
import ThymioDeviceManager.Correctness.AreaWords
import ThymioDeviceManager.Library.Replay
import ThymioDeviceManager.Manager.Watching
import ThymioDeviceManager.Correctness.WatchedVariables
import ThymioDeviceManager.Correctness.CodeRuns
import ThymioDeviceManager.Correctness.CompilationHistory
import ThymioDeviceManager.Correctness.TokenRows
import ThymioDeviceManager.Correctness.VariablePolling
import ThymioDeviceManager.Compiler.Lines
import ThymioDeviceManager.Correctness.SourceLines
import ThymioDeviceManager.Manager.BytecodeMessages
import ThymioDeviceManager.Correctness.BytecodeMessages
import ThymioDeviceManager.Manager.DeviceMessages
import ThymioDeviceManager.Correctness.DeviceMessages
import ThymioDeviceManager.Correctness.TextReads
import ThymioDeviceManager.Correctness.PageWrites
import ThymioDeviceManager.Manager.HexFile
import ThymioDeviceManager.Library.Segments
import ThymioDeviceManager.Correctness.FirmwarePages
import ThymioDeviceManager.Correctness.HexChunks
import ThymioDeviceManager.Correctness.HexReading
import ThymioDeviceManager.Correctness.HexCorruption
import ThymioDeviceManager.Manager.Scratchpads
import ThymioDeviceManager.Correctness.ScratchpadAssignment
import ThymioDeviceManager.Correctness.ScratchpadAnnouncements
import ThymioDeviceManager.Correctness.PreferredNodes
import ThymioDeviceManager.Correctness.CompilationTraces
import ThymioDeviceManager.Correctness.ConstantFolding
import ThymioDeviceManager.Correctness.TokenSafety
import ThymioDeviceManager.Manager.AeslFiles
import ThymioDeviceManager.Correctness.AeslPrograms
import ThymioDeviceManager.Correctness.NodeRemoval
import ThymioDeviceManager.Manager.PropertyFlexbuffer
import ThymioDeviceManager.Correctness.PropertyRoundTrip
import ThymioDeviceManager.Manager.UsbReads
import ThymioDeviceManager.Correctness.UsbReads
import ThymioDeviceManager.Correctness.VariableValues
import ThymioDeviceManager.Correctness.RequestAtomicity
import ThymioDeviceManager.Correctness.NotRemoval
import ThymioDeviceManager.Library.EditDistance
import ThymioDeviceManager.Correctness.Suggestions
import ThymioDeviceManager.Correctness.TokenPositions
import ThymioDeviceManager.Library.IntFormat
import ThymioDeviceManager.Manager.NumericCast
import ThymioDeviceManager.Correctness.NumericCast
import ThymioDeviceManager.Library.Fuel
import ThymioDeviceManager.Machine.Observation
import ThymioDeviceManager.Machine.Relocation
import ThymioDeviceManager.Semantics.Program
import ThymioDeviceManager.Correctness.StackNeeds
import ThymioDeviceManager.Correctness.ObservedCode
import ThymioDeviceManager.Correctness.ProgramRuns
import ThymioDeviceManager.Correctness.InstalledPrograms
import ThymioDeviceManager.Correctness.LinkedPrograms
import ThymioDeviceManager.Correctness.CompiledPrograms
import ThymioDeviceManager.Correctness.OptimizedPrograms
import ThymioDeviceManager.Correctness.SourcePrograms
