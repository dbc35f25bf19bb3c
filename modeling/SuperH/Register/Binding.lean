import SuperH.Register.Profile

/-!
# Register bindings

A binding names the registers that become variables of the interpreter.

* `Binding.derive` : from each class the one-bit registers and, of the others, a choice of ranges
  that overlap neither each other nor a one-bit register;
* `Binding.exactly` : the given names, in the given order.
-/

namespace SuperH

/-- A bound register and its size. -/
structure Bound where
  name : String
  size : Nat
  deriving DecidableEq, Repr

/-- The bound registers in order. -/
structure Binding where
  items : List Bound
  deriving DecidableEq, Repr

/-- Why a list of names is refused. -/
inductive BindingError where
  | unknownRegister (name : String)
  | duplicateName (name : String)
  deriving DecidableEq, Repr

def BindingError.message : BindingError → String
  | .unknownRegister name => "register `" ++ name ++ "` is not part of the profile"
  | .duplicateName name => "register `" ++ name ++ "` is listed twice"

/-- The register's name and size. -/
def Register.bound (r : Register) : Bound := ⟨r.name, r.size⟩

namespace Binding

/-- The bound register of that name. -/
def get? (binding : Binding) (name : String) : Option Bound :=
  binding.items.find? (·.name == name)

/-! ## The derived binding -/

/-- The first register at each offset. -/
def firstPerOffset : List Register → List Register
  | [] => []
  | r :: rs => r :: (firstPerOffset rs).filter (·.offset != r.offset)

/-- The one-bit registers that are bound. -/
def flags (rs : List Register) : List Register := firstPerOffset (rs.filter (·.size == 1))

/-- The flag lies in the register. -/
def covers (r flag : Register) : Bool := r.offset ≤ flag.offset && flag.offset < r.limit

/-- The wider registers that cover no flag. -/
def flagless (rs : List Register) : List Register :=
  let bits := flags rs
  rs.filter fun r => r.size != 1 && !bits.any (covers r)

/-- The first register is a part of a larger second one. -/
def inside (r outer : Register) : Bool :=
  r.size < outer.size && outer.offset ≤ r.offset && r.limit ≤ outer.limit

/-- The registers that are part of no larger one. -/
def outermost (rs : List Register) : List Register := rs.filter fun r => !rs.any (inside r)

/-- Puts a register before the first one at its offset or a higher one. -/
def insertByOffset (r : Register) : List Register → List Register
  | [] => [r]
  | s :: rs => if r.offset ≤ s.offset then r :: s :: rs else s :: insertByOffset r rs

/-- The registers by offset; those at one offset keep their order. -/
def sortByOffset : List Register → List Register
  | [] => []
  | r :: rs => insertByOffset r (sortByOffset rs)

/-- Walks registers by offset and drops one that starts inside of the last that was kept, and the
program counter. -/
def walk (pc : Option String) : Option Register → List Register → List Register
  | _, [] => []
  | last, r :: rs =>
    if last.any (r.offset < ·.limit) || pc == some r.name then walk pc last rs
    else r :: walk pc (some r) rs

/-- The bound registers of one class: its flags, then the others by offset. -/
def deriveClass (pc : Option String) (rs : List Register) : List Register :=
  flags rs ++ walk pc none (sortByOffset (outermost (flagless rs)))

/-- The binding of a profile. -/
def derive (profile : Profile) : Binding where
  items := RegClass.all.flatMap fun cls =>
    (deriveClass profile.pc (profile.ofClass cls)).map (·.bound)

/-! ## An explicit binding -/

/-- Binds names in order, after the ones that are bound already. -/
def bindNames (profile : Profile) (bound : List Bound) :
    List String → Except BindingError (List Bound)
  | [] => .ok bound
  | name :: names =>
    match profile.get? name with
    | none => .error (.unknownRegister name)
    | some r =>
      if bound.any (·.name == name) then .error (.duplicateName name)
      else bindNames profile (bound ++ [r.bound]) names

/-- Binds exactly the given names. -/
def exactly (profile : Profile) (names : List String) : Except BindingError Binding :=
  return ⟨← bindNames profile [] names⟩

end Binding
end SuperH
