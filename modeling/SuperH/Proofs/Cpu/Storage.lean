import Mathlib.Tactic.ByContra
import Mathlib.Tactic.SplitIfs
import SuperH.Cpu.Access

/-!
# Where a register lives

* `Build.bind_eq_ok`, `Build.map_eq_ok` : what a successful construction was made of;
* `Storage` : the variables behind a register index: one of two copies that the bank select picks, the flags, or a
  variable of its own; `storage` finds it;
* `getReg_eq`, `setReg_eq` : a register is read and written through its storage.
-/

namespace SuperH

namespace Build

variable {α β : Type}

theorem bind_eq_ok {x : Build α} {f : α → Build β} {b : β} : x >>= f = .ok b ↔ ∃ a, x = .ok a ∧ f a = .ok b := by
  cases x with
  | ok a => exact ⟨fun h => ⟨a, rfl, h⟩, fun ⟨_, h, hf⟩ => Except.ok.inj h ▸ hf⟩
  | error e => exact ⟨(nomatch ·), fun ⟨_, h, _⟩ => nomatch h⟩

theorem map_eq_ok {x : Build α} {f : α → β} {b : β} : f <$> x = .ok b ↔ ∃ a, x = .ok a ∧ f a = b := by
  cases x with
  | ok a => exact ⟨fun h => ⟨a, rfl, Except.ok.inj h⟩, fun ⟨_, h, hf⟩ => congrArg _ (Except.ok.inj h ▸ hf)⟩
  | error e => exact ⟨(nomatch ·), fun ⟨_, h, _⟩ => nomatch h⟩

end Build

namespace Cpu

open SuperH.Expr SuperH.Effect

/-- The variables behind a register index. -/
inductive Storage where
  /-- R0 to R7: the first copy unless bank 1 is in use -/
  | inUse (bank0 bank1 : String)
  /-- the status register, which the flags make up -/
  | status
  /-- R0 to R7 of the bank that is not in use: the second copy unless RB is set -/
  | notInUse (bank0 bank1 : String)
  /-- a variable of its own -/
  | own (name : String)
  deriving DecidableEq, Repr

namespace Storage

/-- The value of a register. -/
def read : Storage → Expr
  | .inUse b0 b1 => .ite bank1Selected (global b1) (global b0)
  | .status => statusExpr
  | .notInUse b0 b1 => .ite Flag.rb.expr (global b0) (global b1)
  | .own name => global name

/-- Sets a register. -/
def write (value : Expr) : Storage → Effect
  | .inUse b0 b1 => .branch bank1Selected (setGlobal b1 value) (setGlobal b0 value)
  | .status => setStatus value
  | .notInUse b0 b1 => .branch Flag.rb.expr (setGlobal b0 value) (setGlobal b1 value)
  | .own name => setGlobal name value

end Storage

/-- The storage of a register index. -/
def storage (index : Nat) : Build Storage := do
  if isBanked index then
    let (b0, b1) ← bankPair index
    return .inUse b0 b1
  else if index = sr then return .status
  else if isOtherBank index then
    let (b0, b1) ← bankPair (index - r0Bank)
    return .notInUse b0 b1
  else
    match regName? index with
    | some name => return .own name
    | none => throw (.invalidRegister index)

theorem getReg_eq (index : Nat) : getReg index = Storage.read <$> storage index := by
  unfold getReg storage
  split_ifs
  · cases bankPair index <;> rfl
  · rfl
  · cases bankPair (index - r0Bank) <;> rfl
  · cases regName? index <;> rfl

theorem setReg_eq (index : Nat) (value : Expr) : setReg index value = Storage.write value <$> storage index := by
  unfold setReg storage
  split_ifs
  · cases bankPair index <;> rfl
  · rfl
  · cases bankPair (index - r0Bank) <;> rfl
  · cases regName? index <;> rfl

theorem getReg_eq_ok {index : Nat} {e : Expr} : getReg index = .ok e ↔ ∃ s, storage index = .ok s ∧ s.read = e := by
  rw [getReg_eq, Build.map_eq_ok]

theorem setReg_eq_ok {index : Nat} {value : Expr} {e : Effect} :
    setReg index value = .ok e ↔ ∃ s, storage index = .ok s ∧ s.write value = e := by
  rw [setReg_eq, Build.map_eq_ok]

theorem storage_error {index : Nat} (h : regCount ≤ index) : storage index = .error (.invalidRegister index) := by
  have h : 34 ≤ index := h
  have h₁ : isBanked index = false := decide_eq_false (by simp only [bankedCount]; omega)
  have h₂ : index ≠ sr := by simp only [sr]; omega
  have h₃ : isOtherBank index = false := by
    rw [isOtherBank, decide_eq_false (p := index < regCount) (Nat.not_lt.2 h), Bool.and_false]
  have h₄ : regName? index = none := List.getElem?_eq_none_iff.2 (Nat.le_trans (by decide) h)
  rw [storage, h₁, if_neg (by simp), if_neg h₂, h₃, if_neg (by simp), h₄]
  rfl

theorem lt_of_storage {index : Nat} {s : Storage} (h : storage index = .ok s) : index < regCount := by
  by_contra hn
  rw [storage_error (Nat.le_of_not_lt hn)] at h
  cases h

theorem getReg_error {index : Nat} (h : regCount ≤ index) : getReg index = .error (.invalidRegister index) := by
  rw [getReg_eq, storage_error h]
  rfl

theorem setReg_error {index : Nat} (h : regCount ≤ index) (value : Expr) :
    setReg index value = .error (.invalidRegister index) := by
  rw [setReg_eq, storage_error h]
  rfl

end Cpu
end SuperH
