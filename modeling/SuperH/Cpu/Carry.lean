import SuperH.Il.Basic

/-!
# Carry and overflow

Carry, borrow and signed overflow of a sum or difference follow from the most significant bits of
both operands and of the result, at any width and with a carry into the operation. Each rule is
given for three truth values and as an expression over three bit-vectors.
-/

namespace SuperH

/-- The sum `r` of `x` and `y` carries out. -/
def addCarry (x y r : Bool) : Bool := (x && y) || (!r && y) || (x && !r)

/-- The sum `r` of `x` and `y` leaves the signed range. -/
def addOverflow (x y r : Bool) : Bool := (!r && x && y) || (r && !x && !y)

/-- The difference `r` of `x` and `y` borrows. -/
def subBorrow (x y r : Bool) : Bool := (!x && y) || (y && r) || (r && !x)

/-- The difference `r` of `x` and `y` leaves the signed range. -/
def subUnderflow (x y r : Bool) : Bool := (!r && x && !y) || (r && !x && y)

namespace Expr

/-- The sum `res` of `x` and `y` carries out. -/
def addCarry (res x y : Expr) : Expr :=
  let (x, y, r) := (x.msb, y.msb, res.msb)
  ((x.and y).or (r.not.and y)).or (x.and r.not)

/-- The sum `res` of `x` and `y` leaves the signed range. -/
def addOverflow (res x y : Expr) : Expr :=
  let (x, y, r) := (x.msb, y.msb, res.msb)
  ((r.not.and x).and y).or ((r.and x.not).and y.not)

/-- The difference `res` of `x` and `y` borrows. -/
def subBorrow (res x y : Expr) : Expr :=
  let (x, y, r) := (x.msb, y.msb, res.msb)
  ((x.not.and y).or (y.and r)).or (r.and x.not)

/-- The difference `res` of `x` and `y` leaves the signed range. -/
def subUnderflow (res x y : Expr) : Expr :=
  let (x, y, r) := (x.msb, y.msb, res.msb)
  ((r.not.and x).and y.not).or ((r.and x.not).and y)

end Expr
end SuperH
