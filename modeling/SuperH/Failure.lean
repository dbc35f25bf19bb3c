import SuperH.Bits.Basic

/-!
# Failures

A call stops with an error of its own kind, or with a fault of a bit-vector operation that was used
outside of its domain. `EStateM (Failure ε) σ` is a run over a state `σ` which both answers and
failures leave as far as they came.
-/

namespace SuperH

/-- Why a call stopped. -/
inductive Failure (ε : Type) where
  /-- the call reports an error -/
  | error (e : ε)
  /-- a bit-vector operation was used outside of its domain -/
  | fault (f : Fault)
  deriving DecidableEq

namespace Failure

/-- Restates the error and keeps a fault. -/
def map {ε ε' : Type} (f : ε → ε') : Failure ε → Failure ε'
  | .error e => .error (f e)
  | .fault g => .fault g

/-- Runs a computation that can only report an error. -/
def ofError {ε σ α : Type} : Except ε α → EStateM (Failure ε) σ α
  | .ok a => pure a
  | .error e => throw (.error e)

/-- Runs a computation that can only fault. -/
def ofFault {ε σ α : Type} : Except Fault α → EStateM (Failure ε) σ α
  | .ok a => pure a
  | .error f => throw (.fault f)

instance {ε σ : Type} : MonadLift (Except Fault) (EStateM (Failure ε) σ) := ⟨ofFault⟩

@[simp] theorem ofError_ok {ε σ α : Type} (a : α) :
    (ofError (.ok a) : EStateM (Failure ε) σ α) = pure a := rfl

@[simp] theorem ofFault_ok {ε σ α : Type} (a : α) :
    (ofFault (.ok a) : EStateM (Failure ε) σ α) = pure a := rfl

end Failure
end SuperH
