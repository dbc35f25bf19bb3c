import SuperH.Lift.Bitwise
import SuperH.Lift.Branch
import SuperH.Lift.Compare
import SuperH.Lift.Integer
import SuperH.Lift.Move
import SuperH.Lift.Multiply

/-!
# Lifting

`lift insn pc privileged` is the meaning of a decoded instruction at an address. It is a function of
its arguments alone: a privileged instruction that is met without privilege yields the exception
`reservedInstruction` in place of an effect.
-/

namespace SuperH

/-- A way to lift an instruction at an address, with or without privilege. -/
abbrev Lifter := Insn → Nat → Bool → Except LiftError Lifted

/-- The exception of a privileged instruction in user mode. -/
def reservedInstruction : String := "SuperH: RESINST"

namespace Lift

/-- The effect of an instruction that needs no privilege. -/
def effect (cx : Context) : Build Effect :=
  match cx.insn.mnemonic with
  | .invalid => throw (.invalidInstruction cx.insn.opcode)
  | .mov | .movca | .ldc | .lds | .stc | .sts => move cx
  | .movt => moveCondition cx
  | .swap => swap cx
  | .xtrct => extract cx
  | .add => add cx
  | .addc => addWithCarry cx
  | .addv => addWithOverflow cx
  | .sub => sub cx
  | .subc => subWithBorrow cx
  | .subv => subWithUnderflow cx
  | .neg => negate cx
  | .negc => negateWithBorrow cx
  | .dt => decrementAndTest cx
  | .exts => extend cx true
  | .extu => extend cx false
  | .cmpEq => compareEq cx
  | .cmpHs => compare cx .uge
  | .cmpGe => compare cx .sge
  | .cmpHi => compare cx .ugt
  | .cmpGt => compare cx .sgt
  | .cmpPz => compareZero cx .sge
  | .cmpPl => compareZero cx .sgt
  | .cmpStr => compareBytes cx
  | .tst => test cx
  | .div1 => divide cx
  | .div0s => divideSigned cx
  | .div0u => return divideUnsigned
  | .dmuls => multiplyDouble cx true
  | .dmulu => multiplyDouble cx false
  | .mul => multiplyLong cx
  | .muls => multiplyWord cx true
  | .mulu => multiplyWord cx false
  | .mac => multiplyAndAdd cx
  | .clrmac => return clearMac
  | .and => bitwise cx .bitAnd
  | .or => bitwise cx .bitOr
  | .xor => bitwise cx .bitXor
  | .not => bitNot cx
  | .tas => testAndSet cx
  | .rotl => rotateLeft cx
  | .rotr => rotateRight cx
  | .rotcl => rotateLeftThrough cx
  | .rotcr => rotateRightThrough cx
  | .shad => shiftDynamic cx true
  | .shld => shiftDynamic cx false
  | .shal | .shll => shiftLeft cx
  | .shar => shiftRight cx true
  | .shlr => shiftRight cx false
  | .shll2 => shiftBy cx true 2
  | .shlr2 => shiftBy cx false 2
  | .shll8 => shiftBy cx true 8
  | .shlr8 => shiftBy cx false 8
  | .shll16 => shiftBy cx true 16
  | .shlr16 => shiftBy cx false 16
  | .bf | .bfs => branchIf cx false
  | .bt | .bts => branchIf cx true
  | .bra | .braf | .jmp => jump cx
  | .bsr | .bsrf | .jsr => call cx
  | .rts => return returnFromCall
  | .rte => return returnFromException
  | .clrs => return Flag.s.assign (.bool false)
  | .clrt => return Flag.t.assign (.bool false)
  | .sets => return Flag.s.assign (.bool true)
  | .sett => return Flag.t.assign (.bool true)
  | .nop | .sleep => return .nop
  | .unimpl => return .empty

/-- The instruction is refused without privilege. Of the control registers only GBR may be moved. -/
def needsPrivilege (cx : Context) : Bool :=
  match cx.insn.mnemonic with
  | .ldc => cx.register? 1 != some Cpu.gbr
  | .stc => cx.register? 0 != some Cpu.gbr
  | .rte | .sleep => true
  | _ => false

end Lift

/-- The meaning of an instruction of the SH-4. -/
def lift : Lifter := fun insn pc privileged =>
  let cx : Context := ⟨insn, pc⟩
  if Lift.needsPrivilege cx && !privileged then .ok (.exception reservedInstruction)
  else .effect <$> Lift.effect cx

end SuperH
