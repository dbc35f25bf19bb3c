import SuperH.Bits.Basic
import SuperH.Bits.Bytes
import SuperH.Bits.Digits
import SuperH.Bits.Limbs
import SuperH.Bits.Power
import SuperH.Bits.Product
import SuperH.Cli.Arguments
import SuperH.Cli.Command
import SuperH.Cpu.Access
import SuperH.Cpu.Carry
import SuperH.Cpu.Divide
import SuperH.Cpu.MultiplyAccumulate
import SuperH.Cpu.Registers
import SuperH.Cpu.Status
import SuperH.Failure
import SuperH.Il.Basic
import SuperH.Il.Text
import SuperH.Insn.Basic
import SuperH.Insn.Mnemonic
import SuperH.Insn.Operand
import SuperH.Insn.Record
import SuperH.Json.Basic
import SuperH.Json.Parser
import SuperH.Json.Printer
import SuperH.Json.Token
import SuperH.Lift.Basic
import SuperH.Lift.Bitwise
import SuperH.Lift.Branch
import SuperH.Lift.Compare
import SuperH.Lift.Context
import SuperH.Lift.Integer
import SuperH.Lift.Move
import SuperH.Lift.Multiply
import SuperH.Main
import SuperH.Memory.Bus
import SuperH.Memory.Linear
import SuperH.Proofs.Bits.BitVec
import SuperH.Proofs.Bits.Composition
import SuperH.Proofs.Bits.LimbArithmetic
import SuperH.Proofs.Bits.Operations
import SuperH.Proofs.Bits.Packed
import SuperH.Proofs.Bits.Representation
import SuperH.Proofs.Bits.Rotation
import SuperH.Proofs.Bits.Value
import SuperH.Proofs.Cpu.Address
import SuperH.Proofs.Cpu.Attached
import SuperH.Proofs.Cpu.Banks
import SuperH.Proofs.Cpu.Carry
import SuperH.Proofs.Cpu.Divide
import SuperH.Proofs.Cpu.EffectiveAddress
import SuperH.Proofs.Cpu.Execution
import SuperH.Proofs.Cpu.Loads
import SuperH.Proofs.Cpu.MultiplyAccumulate
import SuperH.Proofs.Cpu.Place
import SuperH.Proofs.Cpu.Policy
import SuperH.Proofs.Cpu.SetUp
import SuperH.Proofs.Cpu.Slot
import SuperH.Proofs.Cpu.Sorting
import SuperH.Proofs.Cpu.State
import SuperH.Proofs.Cpu.Status
import SuperH.Proofs.Cpu.Storage
import SuperH.Proofs.Cpu.View
import SuperH.Proofs.Cpu.WideArithmetic
import SuperH.Proofs.Il.Unambiguous
import SuperH.Proofs.Lift.Branch
import SuperH.Proofs.Lift.ByteOperation
import SuperH.Proofs.Lift.Compare
import SuperH.Proofs.Lift.DynamicShift
import SuperH.Proofs.Lift.Form
import SuperH.Proofs.Lift.Integer
import SuperH.Proofs.Lift.Load
import SuperH.Proofs.Lift.Multiply
import SuperH.Proofs.Lift.MultiplyAccumulate
import SuperH.Proofs.Lift.OnRegisters
import SuperH.Proofs.Lift.Policy
import SuperH.Proofs.Lift.PostIncrement
import SuperH.Proofs.Lift.PreDecrement
import SuperH.Proofs.Lift.Quotient
import SuperH.Proofs.Lift.Rotation
import SuperH.Proofs.Lift.Sorting
import SuperH.Proofs.Lift.Soundness
import SuperH.Proofs.Lift.Stack
import SuperH.Proofs.Lift.Stores
import SuperH.Proofs.Lift.Straight
import SuperH.Proofs.Register.Aliasing
import SuperH.Proofs.Register.Candidate
import SuperH.Proofs.Register.Choice
import SuperH.Proofs.Register.Derive
import SuperH.Proofs.Register.FixedPoint
import SuperH.Proofs.Register.ProgramCounter
import SuperH.Proofs.Register.Reorder
import SuperH.Proofs.Register.Selection
import SuperH.Proofs.Register.View
import SuperH.Proofs.Register.Walk
import SuperH.Proofs.Run.Contract
import SuperH.Proofs.Session.Advance
import SuperH.Proofs.Session.Branch
import SuperH.Proofs.Session.ByteOperation
import SuperH.Proofs.Session.Comparison
import SuperH.Proofs.Session.Completes
import SuperH.Proofs.Session.Division
import SuperH.Proofs.Session.DotProduct
import SuperH.Proofs.Session.DynamicShift
import SuperH.Proofs.Session.Exceptions
import SuperH.Proofs.Session.Execute
import SuperH.Proofs.Session.FlagArithmetic
import SuperH.Proofs.Session.Forward
import SuperH.Proofs.Session.Live
import SuperH.Proofs.Session.Load
import SuperH.Proofs.Session.Memoryless
import SuperH.Proofs.Session.Multiplication
import SuperH.Proofs.Session.PostIncrement
import SuperH.Proofs.Session.PreDecrement
import SuperH.Proofs.Session.Rotation
import SuperH.Proofs.Session.ShortDivision
import SuperH.Proofs.Session.Sorts
import SuperH.Proofs.Session.Stack
import SuperH.Proofs.Session.TornStore
import SuperH.Proofs.Session.Transforms
import SuperH.Proofs.Session.Untouched
import SuperH.Proofs.Text.Hex
import SuperH.Proofs.Text.Image
import SuperH.Proofs.Text.Symbolic
import SuperH.Proofs.User.Confinement
import SuperH.Proofs.User.Noninterference
import SuperH.Proofs.User.Policy
import SuperH.Proofs.Vm.Access
import SuperH.Proofs.Vm.Agree
import SuperH.Proofs.Vm.Eval
import SuperH.Proofs.Vm.Faultless
import SuperH.Proofs.Vm.Linear
import SuperH.Proofs.Vm.Load
import SuperH.Proofs.Vm.Operation
import SuperH.Proofs.Vm.Policy
import SuperH.Proofs.Vm.ProgramCounter
import SuperH.Proofs.Vm.Report
import SuperH.Proofs.Vm.RoundTrip
import SuperH.Proofs.Vm.Sequence
import SuperH.Proofs.Vm.SetUp
import SuperH.Proofs.Vm.SetUpFailure
import SuperH.Proofs.Vm.Sort
import SuperH.Proofs.Vm.Sorting
import SuperH.Proofs.Vm.Soundness
import SuperH.Proofs.Vm.Stores
import SuperH.Proofs.Vm.Straight
import SuperH.Proofs.Vm.Sync
import SuperH.Proofs.Vm.Wiring
import SuperH.Proofs.Vm.Write
import SuperH.Register.Binding
import SuperH.Register.File
import SuperH.Register.Profile
import SuperH.Register.Record
import SuperH.Session
import SuperH.Text.Hex
import SuperH.Vm.Basic
import SuperH.Vm.Exec
import SuperH.Vm.Record
import SuperH.Vm.Sync
import SuperH.Vm.Value
