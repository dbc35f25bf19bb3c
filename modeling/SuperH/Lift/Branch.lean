import SuperH.Lift.Context

/-!
# Branches

The instruction in a delay slot is not part of a branch.
-/

namespace SuperH.Lift

open SuperH.Expr SuperH.Effect SuperH.Cpu

/-- BT and BF with and without delay slot: jumps if T is as asked for. -/
def branchIf (cx : Context) (condition : Bool) : Build Effect := do
  let taken := Effect.jmp (← cx.address 0)
  return if condition then .branch Flag.t.expr taken .nop else .branch Flag.t.expr .nop taken

/-- BRA, BRAF and JMP. -/
def jump (cx : Context) : Build Effect := return .jmp (← cx.address 0)

/-- BSR, BSRF and JSR: PR takes the address after the delay slot. -/
def call (cx : Context) : Build Effect :=
  return .sequence [setGlobal "pr" (word (cx.pc + 4)), .jmp (← cx.address 0)]

/-- RTS. -/
def returnFromCall : Effect := .jmp (global "pr")

/-- RTE: SR comes from SSR, and the program goes on at SPC. -/
def returnFromException : Effect := .sequence [setStatus (global "ssr"), .jmp (global "spc")]

end SuperH.Lift
