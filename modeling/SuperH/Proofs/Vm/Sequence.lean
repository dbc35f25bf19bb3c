import SuperH.Vm.Exec

/-!
# Sequences without sequences in them

* `Machine.execAll_append` : effects that are run in two parts;
* `Machine.exec_sequence` : a sequence that is built from the parts of effects does what the effects do in order;
* `Effect.flatten`, `Effect.Flat` : a tree in which every sequence is built in that way has no sequence directly in another;
* `sequences_flatten` : neither changes any run, also one that fails in the middle.
-/

namespace SuperH

namespace Effect

/-- The effect runs others one after the other. -/
def isSequence : Effect → Bool
  | .seq _ => true
  | _ => false

mutual

/-- The tree with each of its sequences built from parts, the innermost ones first. -/
def flatten : Effect → Effect
  | .nop => .nop
  | .empty => .empty
  | .set v e => .set v e
  | .store a e => .store a e
  | .seq es => sequence (flattenAll es)
  | .branch c t e => .branch c t.flatten e.flatten
  | .jmp target => .jmp target
  | .raise name => .raise name

def flattenAll : List Effect → List Effect
  | [] => []
  | e :: es => e.flatten :: flattenAll es

end

mutual

/-- No sequence of the tree is directly in another. -/
def Flat : Effect → Prop
  | .nop | .empty | .set _ _ | .store _ _ | .jmp _ | .raise _ => True
  | .seq es => AllFlat es
  | .branch _ t e => t.Flat ∧ e.Flat

/-- None of the effects is a sequence, and each is flat. -/
def AllFlat : List Effect → Prop
  | [] => True
  | e :: es => (e.isSequence = false ∧ e.Flat) ∧ AllFlat es

end

/-! ## The form of flat trees -/

theorem allFlat_append {es fs : List Effect} : AllFlat (es ++ fs) ↔ AllFlat es ∧ AllFlat fs := by
  induction es with
  | nil => simp [AllFlat]
  | cons e es ih => simp [AllFlat, ih, and_assoc]

/-- The parts of a flat effect are flat, and no sequences. -/
theorem Flat.parts {e : Effect} (h : e.Flat) : AllFlat e.parts := by
  cases e with
  | seq es => exact h
  | _ => exact ⟨⟨rfl, h⟩, trivial⟩

mutual

theorem flat_flatten : ∀ e : Effect, e.flatten.Flat
  | .nop | .empty | .set _ _ | .store _ _ | .jmp _ | .raise _ => trivial
  | .seq es => allFlat_flattenAll es
  | .branch _ t e => ⟨flat_flatten t, flat_flatten e⟩

theorem allFlat_flattenAll : ∀ es : List Effect, AllFlat ((flattenAll es).flatMap Effect.parts)
  | [] => trivial
  | e :: es => allFlat_append.2 ⟨(flat_flatten e).parts, allFlat_flattenAll es⟩

end

end Effect

/-! ## Runs -/

namespace Machine

open Effect (parts sequence flattenAll)

variable {σ : Type} [Bus σ]

theorem execAll_append (es fs : List Effect) :
    (execAll (es ++ fs) : Run σ Unit) = execAll es >>= fun _ => execAll fs := by
  induction es with
  | nil => exact (pure_bind () fun _ => execAll fs).symm
  | cons e es ih =>
    calc (execAll (e :: es ++ fs) : Run σ Unit)
      _ = exec e >>= fun _ => execAll es >>= fun _ => execAll fs := by rw [← ih]; rfl
      _ = execAll (e :: es) >>= fun _ => execAll fs := (bind_assoc ..).symm

theorem execAll_parts (e : Effect) : (execAll e.parts : Run σ Unit) = exec e := by
  have hone : (execAll [e] : Run σ Unit) = exec e := bind_pure (exec e)
  cases e with
  | seq es => rfl
  | _ => exact hone

/-- An effect that stops stops the whole sequence, whether it stands in it or in a sequence in it. -/
theorem exec_sequence (es : List Effect) : (exec (sequence es) : Run σ Unit) = execAll es := by
  show execAll (es.flatMap parts) = execAll es
  induction es with
  | nil => rfl
  | cons e es ih =>
    rw [List.flatMap_cons, execAll_append, execAll_parts, ih]
    rfl

mutual

theorem exec_flatten : ∀ e : Effect, (exec e.flatten : Run σ Unit) = exec e
  | .nop | .empty | .set _ _ | .store _ _ | .jmp _ | .raise _ => rfl
  | .seq es => (exec_sequence (flattenAll es)).trans (execAll_flattenAll es)
  | .branch c t e => by
    show (value c >>= fun x => Failure.ofError x.asBool >>= fun b => if b then exec t.flatten else exec e.flatten) = _
    rw [exec_flatten t, exec_flatten e]
    rfl

theorem execAll_flattenAll : ∀ es : List Effect, (execAll (flattenAll es) : Run σ Unit) = execAll es
  | [] => rfl
  | e :: es => by
    show (exec e.flatten >>= fun _ => execAll (flattenAll es)) = _
    rw [exec_flatten e, execAll_flattenAll es]
    rfl

end

/-- A sequence that is built from the parts of effects runs as the sequence of the effects does: with the same outcome, an
error included, and to the same interpreter and memory. So does a tree all of whose sequences are built in that way, however
deep they were nested, and in such a tree no sequence is directly in another. -/
theorem sequences_flatten (es : List Effect) (m : Machine σ) :
    exec (sequence es) m = exec (.seq es) m ∧
      exec (Effect.seq es).flatten m = exec (.seq es) m ∧ (Effect.seq es).flatten.Flat := by
  refine ⟨?_, ?_, Effect.flat_flatten (.seq es)⟩
  · rw [exec_sequence]
    rfl
  · rw [exec_flatten]

end Machine
end SuperH
