import Mathlib.Data.List.Nodup
import SuperH.Proofs.Text.Hex
import SuperH.Proofs.Text.Symbolic

/-!
# The text of a tree determines the tree

* `Operator` : the words that begin a form, no two of them alike (`Operator.symbol_injective`);
* `Expr.sexpr`, `Effect.sexpr`, `Lifted.sexpr` : the symbolic expressions of the trees, whose texts are those of the trees
  (`Expr.text_sexpr`, `Effect.text_sexpr`, `Lifted.text_sexpr`) and which determine them (`Expr.sexpr_injective`,
  `Effect.sexpr_injective`, `Lifted.sexpr_injective`);
* `Expr.WellNamed`, `Effect.WellNamed`, `Lifted.WellNamed` : trees whose variables have words for names, and whose
  exceptions have names without quotes;
* `text_unambiguous` : such trees have different texts if they differ.
-/

namespace SuperH

/-! ## Operators -/

/-- What a form is about. -/
inductive Operator where
  | bits
  | var (scope : Scope)
  | ite
  | not
  | logic (op : LogicOp)
  | msb
  | lsb
  | isZero
  | cmp (op : CmpOp)
  | arith (op : ArithOp)
  | neg
  | complement
  | shift (op : ShiftOp)
  | cast (signed : Bool)
  | load
  | set (scope : Scope)
  | store
  | seq
  | branch
  | jmp
  | raise
  | exception
  deriving DecidableEq

namespace Operator

/-- The word that begins the form. -/
def symbol : Operator → String
  | bits => "bv"
  | var scope => scope.word "var"
  | ite => "ite"
  | not => "!"
  | logic op => op.symbol
  | msb => "msb"
  | lsb => "lsb"
  | isZero => "is_zero"
  | cmp op => op.symbol
  | arith op => op.symbol
  | neg => "neg"
  | complement => "~"
  | shift op => op.symbol
  | cast signed => if signed then "signed" else "unsigned"
  | load => "load"
  | set scope => scope.word "set"
  | store => "store"
  | seq => "seq"
  | branch => "branch"
  | jmp => "jmp"
  | raise => "raise"
  | exception => "exception"

/-- Every operator. -/
def all : List Operator :=
  [bits, var .global, var .temp, ite, not, logic .and, logic .or, logic .xor, msb, lsb, isZero, cmp .eq, cmp .ult, cmp .ule,
    cmp .ugt, cmp .uge, cmp .slt, cmp .sle, cmp .sgt, cmp .sge, arith .add, arith .sub, arith .mul, arith .and, arith .or,
    arith .xor, neg, complement, shift .left, shift .right, shift .rightArith, cast true, cast false, load, set .global,
    set .temp, store, seq, branch, jmp, raise, exception]

theorem mem_all (o : Operator) : o ∈ all := by
  cases o with
  | var scope | set scope => cases scope <;> decide
  | logic op | cmp op | arith op | shift op => cases op <;> decide
  | cast signed => cases signed <;> decide
  | _ => decide

/-- Symbols may begin alike, but no two are the same word. -/
theorem symbol_injective : Function.Injective symbol := by
  have hnodup : (all.map symbol).Nodup := by decide
  exact fun o o' h => List.inj_on_of_nodup_map hnodup (mem_all o) (mem_all o') h

theorem isWord_symbol (o : Operator) : IsWord o.symbol := by
  have hall : ∀ o ∈ all, IsWord o.symbol := by decide
  exact hall o (mem_all o)

end Operator

/-! ## Well-named trees -/

/-- Every variable has a word for a name. -/
def Expr.WellNamed : Expr → Prop
  | .bool _ | .bits _ => True
  | .var v => IsWord v.name
  | .ite c t e => c.WellNamed ∧ t.WellNamed ∧ e.WellNamed
  | .not x | .msb x | .lsb x | .isZero x | .neg x | .complement x | .cast _ _ x | .loadBits _ x => x.WellNamed
  | .logic _ x y | .cmp _ x y | .arith _ x y | .shift _ x y => x.WellNamed ∧ y.WellNamed

mutual

/-- Every variable has a word for a name, and no exception has a quote in its own. -/
def Effect.WellNamed : Effect → Prop
  | .nop | .empty => True
  | .set v e => IsWord v.name ∧ e.WellNamed
  | .store a e => a.WellNamed ∧ e.WellNamed
  | .seq es => Effect.AllWellNamed es
  | .branch c t e => c.WellNamed ∧ t.WellNamed ∧ e.WellNamed
  | .jmp target => target.WellNamed
  | .raise name => '"' ∉ name.toList

def Effect.AllWellNamed : List Effect → Prop
  | [] => True
  | e :: es => e.WellNamed ∧ Effect.AllWellNamed es

end

def Lifted.WellNamed : Lifted → Prop
  | .effect e => e.WellNamed
  | .exception name => '"' ∉ name.toList

/-! ## Trees as symbolic expressions -/

def Expr.sexpr : Expr → SExpr Operator
  | .bool b => .word (boolText b)
  | .bits v => .form .bits [.word (toString v.width), .word v.text]
  | .var v => .form (.var v.scope) [.word v.name]
  | .ite c t e => .form .ite [c.sexpr, t.sexpr, e.sexpr]
  | .not x => .form .not [x.sexpr]
  | .logic op x y => .form (.logic op) [x.sexpr, y.sexpr]
  | .msb x => .form .msb [x.sexpr]
  | .lsb x => .form .lsb [x.sexpr]
  | .isZero x => .form .isZero [x.sexpr]
  | .cmp op x y => .form (.cmp op) [x.sexpr, y.sexpr]
  | .arith op x y => .form (.arith op) [x.sexpr, y.sexpr]
  | .neg x => .form .neg [x.sexpr]
  | .complement x => .form .complement [x.sexpr]
  | .shift op x n => .form (.shift op) [x.sexpr, n.sexpr]
  | .cast signed width x => .form (.cast signed) [.word (toString width), x.sexpr]
  | .loadBits n a => .form .load [.word (toString n.toNat), a.sexpr]

mutual

def Effect.sexpr : Effect → SExpr Operator
  | .nop => .word "nop"
  | .empty => .word "empty"
  | .set v e => .form (.set v.scope) [.word v.name, e.sexpr]
  | .store a e => .form .store [a.sexpr, e.sexpr]
  | .seq es => .form .seq (Effect.sexprs es)
  | .branch c t e => .form .branch [c.sexpr, t.sexpr, e.sexpr]
  | .jmp target => .form .jmp [target.sexpr]
  | .raise name => .form .raise [.quoted name]

def Effect.sexprs : List Effect → List (SExpr Operator)
  | [] => []
  | e :: es => e.sexpr :: Effect.sexprs es

end

def Lifted.sexpr : Lifted → SExpr Operator
  | .effect e => e.sexpr
  | .exception name => .form .exception [.quoted name]

/-! ## The same texts -/

theorem Expr.text_sexpr (e : Expr) : e.sexpr.text Operator.symbol = e.text := by
  induction e with
  | bool b | bits v | var v => rfl
  | ite c t e ihc iht ihe => simp only [sexpr, SExpr.text, SExpr.texts, ihc, iht, ihe, Operator.symbol, text]
  | not x ih | msb x ih | lsb x ih | isZero x ih | neg x ih | complement x ih | cast signed width x ih | loadBits n x ih =>
    simp only [sexpr, SExpr.text, SExpr.texts, ih, Operator.symbol, text]
  | logic op x y ihx ihy | cmp op x y ihx ihy | arith op x y ihx ihy | shift op x y ihx ihy =>
    simp only [sexpr, SExpr.text, SExpr.texts, ihx, ihy, Operator.symbol, text]

mutual

theorem Effect.text_sexpr : ∀ e : Effect, e.sexpr.text Operator.symbol = e.text
  | .nop | .empty | .raise _ => rfl
  | .set v e => by simp only [sexpr, SExpr.text, SExpr.texts, e.text_sexpr, Operator.symbol, text]
  | .store a e => by simp only [sexpr, SExpr.text, SExpr.texts, a.text_sexpr, e.text_sexpr, Operator.symbol, text]
  | .seq es => by simp only [sexpr, SExpr.text, Effect.texts_sexprs es, Operator.symbol, text]
  | .branch c t e => by
    simp only [sexpr, SExpr.text, SExpr.texts, c.text_sexpr, t.text_sexpr, e.text_sexpr, Operator.symbol, text]
  | .jmp target => by simp only [sexpr, SExpr.text, SExpr.texts, target.text_sexpr, Operator.symbol, text]

theorem Effect.texts_sexprs : ∀ es : List Effect, SExpr.texts Operator.symbol (Effect.sexprs es) = Effect.texts es
  | [] => rfl
  | e :: es => by simp only [sexprs, SExpr.texts, e.text_sexpr, Effect.texts_sexprs es, texts]

end

theorem Lifted.text_sexpr (l : Lifted) : l.sexpr.text Operator.symbol = l.text := by
  cases l with
  | effect e => exact e.text_sexpr
  | exception name => rfl

/-! ## Readable expressions -/

theorem plain_of_mem_toDigits {b : Nat} (hb : 1 < b) (hb' : b ≤ 16) {n : Nat} : ∀ c ∈ Nat.toDigits b n, Plain c := by
  have hdigit : ∀ d < 16, Plain d.digitChar := by decide
  intro c hc
  obtain ⟨d, hd, rfl⟩ := exists_of_mem_toDigits hb hc
  exact hdigit d (by omega)

theorem isWord_toString (n : Nat) : IsWord (toString n) := by
  rw [IsWord, Nat.toString_eq_repr, Nat.toList_repr]
  exact ⟨Nat.toDigits_ne_nil, plain_of_mem_toDigits (by decide) (by decide)⟩

theorem Bits.isWord_text (x : Bits) : IsWord x.text := by
  rw [IsWord, text_eq, String.toList_ofList]
  refine ⟨List.cons_ne_nil _ _, fun c hc => ?_⟩
  rcases List.mem_cons.1 hc with rfl | hc
  · decide
  · rcases List.mem_cons.1 hc with rfl | hc
    · decide
    · exact plain_of_mem_toDigits (by decide) (by decide) c hc

theorem isWord_boolText : ∀ b, IsWord (boolText b) := by decide

theorem Expr.readable_sexpr {e : Expr} (h : e.WellNamed) : e.sexpr.Readable := by
  induction e with
  | bool b => exact isWord_boolText b
  | bits v => exact ⟨isWord_toString _, v.isWord_text, trivial⟩
  | var v => exact ⟨h, trivial⟩
  | ite c t e ihc iht ihe => exact ⟨ihc h.1, iht h.2.1, ihe h.2.2, trivial⟩
  | not x ih | msb x ih | lsb x ih | isZero x ih | neg x ih | complement x ih => exact ⟨ih h, trivial⟩
  | cast signed width x ih | loadBits n x ih => exact ⟨isWord_toString _, ih h, trivial⟩
  | logic op x y ihx ihy | cmp op x y ihx ihy | arith op x y ihx ihy | shift op x y ihx ihy =>
    exact ⟨ihx h.1, ihy h.2, trivial⟩

mutual

theorem Effect.readable_sexpr : ∀ {e : Effect}, e.WellNamed → e.sexpr.Readable
  | .nop, _ => show IsWord "nop" by decide
  | .empty, _ => show IsWord "empty" by decide
  | .set _ _, h => ⟨h.1, Expr.readable_sexpr h.2, trivial⟩
  | .store _ _, h => ⟨Expr.readable_sexpr h.1, Expr.readable_sexpr h.2, trivial⟩
  | .seq _, h => Effect.allReadable_sexprs h
  | .branch _ _ _, h => ⟨Expr.readable_sexpr h.1, Effect.readable_sexpr h.2.1, Effect.readable_sexpr h.2.2, trivial⟩
  | .jmp _, h => ⟨Expr.readable_sexpr h, trivial⟩
  | .raise _, h => ⟨h, trivial⟩

theorem Effect.allReadable_sexprs : ∀ {es : List Effect}, Effect.AllWellNamed es → SExpr.AllReadable (Effect.sexprs es)
  | [], _ => trivial
  | _ :: _, h => ⟨Effect.readable_sexpr h.1, Effect.allReadable_sexprs h.2⟩

end

theorem Lifted.readable_sexpr {l : Lifted} (h : l.WellNamed) : l.sexpr.Readable := by
  cases l with
  | effect e => exact Effect.readable_sexpr h
  | exception name => exact ⟨h, trivial⟩

/-! ## Trees from their expressions -/

theorem boolText_inj : ∀ {b b' : Bool}, boolText b = boolText b' → b = b' := by decide

attribute [ext] Var

theorem Expr.sexpr_injective {e e' : Expr} (h : e.sexpr = e'.sexpr) : e = e' := by
  induction e generalizing e' with
  | bool b =>
    cases e' with
    | bool b' => rw [boolText_inj (SExpr.word.inj h)]
    | _ => cases h
  | bits v =>
    cases e' with
    | bits v' =>
      obtain ⟨-, hwidth, htext⟩ := SExpr.form_inj₂ h
      rw [Bits.ext_toNat (toString_nat_inj (SExpr.word.inj hwidth)) (Bits.toNat_inj_of_text (SExpr.word.inj htext))]
    | _ => cases h
  | var v =>
    cases e' with
    | var v' =>
      obtain ⟨hscope, hname⟩ := SExpr.form_inj₁ h
      rw [Var.ext (Operator.var.inj hscope) (SExpr.word.inj hname)]
    | _ => cases h
  | ite c t e ihc iht ihe =>
    cases e' with
    | ite c' t' e' =>
      obtain ⟨-, hc, ht, he⟩ := SExpr.form_inj₃ h
      rw [ihc hc, iht ht, ihe he]
    | _ => cases h
  | not x ih =>
    cases e' with
    | not x' => rw [ih (SExpr.form_inj₁ h).2]
    | _ => cases h
  | msb x ih =>
    cases e' with
    | msb x' => rw [ih (SExpr.form_inj₁ h).2]
    | _ => cases h
  | lsb x ih =>
    cases e' with
    | lsb x' => rw [ih (SExpr.form_inj₁ h).2]
    | _ => cases h
  | isZero x ih =>
    cases e' with
    | isZero x' => rw [ih (SExpr.form_inj₁ h).2]
    | _ => cases h
  | neg x ih =>
    cases e' with
    | neg x' => rw [ih (SExpr.form_inj₁ h).2]
    | _ => cases h
  | complement x ih =>
    cases e' with
    | complement x' => rw [ih (SExpr.form_inj₁ h).2]
    | _ => cases h
  | logic op x y ihx ihy =>
    cases e' with
    | logic op' x' y' =>
      obtain ⟨hop, hx, hy⟩ := SExpr.form_inj₂ h
      obtain rfl := Operator.logic.inj hop
      rw [ihx hx, ihy hy]
    | _ => cases h
  | cmp op x y ihx ihy =>
    cases e' with
    | cmp op' x' y' =>
      obtain ⟨hop, hx, hy⟩ := SExpr.form_inj₂ h
      obtain rfl := Operator.cmp.inj hop
      rw [ihx hx, ihy hy]
    | _ => cases h
  | arith op x y ihx ihy =>
    cases e' with
    | arith op' x' y' =>
      obtain ⟨hop, hx, hy⟩ := SExpr.form_inj₂ h
      obtain rfl := Operator.arith.inj hop
      rw [ihx hx, ihy hy]
    | _ => cases h
  | shift op x y ihx ihy =>
    cases e' with
    | shift op' x' y' =>
      obtain ⟨hop, hx, hy⟩ := SExpr.form_inj₂ h
      obtain rfl := Operator.shift.inj hop
      rw [ihx hx, ihy hy]
    | _ => cases h
  | cast signed width x ih =>
    cases e' with
    | cast signed' width' x' =>
      obtain ⟨hsigned, hwidth, hx⟩ := SExpr.form_inj₂ h
      rw [Operator.cast.inj hsigned, toString_nat_inj (SExpr.word.inj hwidth), ih hx]
    | _ => cases h
  | loadBits n a ih =>
    cases e' with
    | loadBits n' a' =>
      obtain ⟨-, hn, ha⟩ := SExpr.form_inj₂ h
      rw [BitVec.eq_of_toNat_eq (toString_nat_inj (SExpr.word.inj hn)), ih ha]
    | _ => cases h

mutual

theorem Effect.sexpr_injective : ∀ {e e' : Effect}, e.sexpr = e'.sexpr → e = e'
  | .nop, e', h => by
    cases e' with
    | nop => rfl
    | empty => exact absurd (SExpr.word.inj h) (by decide)
    | _ => cases h
  | .empty, e', h => by
    cases e' with
    | nop => exact absurd (SExpr.word.inj h) (by decide)
    | empty => rfl
    | _ => cases h
  | .set v x, e', h => by
    cases e' with
    | set v' x' =>
      obtain ⟨hscope, hname, hx⟩ := SExpr.form_inj₂ h
      rw [Var.ext (Operator.set.inj hscope) (SExpr.word.inj hname), Expr.sexpr_injective hx]
    | _ => cases h
  | .store a x, e', h => by
    cases e' with
    | store a' x' =>
      obtain ⟨-, ha, hx⟩ := SExpr.form_inj₂ h
      rw [Expr.sexpr_injective ha, Expr.sexpr_injective hx]
    | _ => cases h
  | .seq es, e', h => by
    cases e' with
    | seq es' => rw [Effect.sexprs_injective (SExpr.form.inj h).2]
    | _ => cases h
  | .branch c t e, e', h => by
    cases e' with
    | branch c' t' e' =>
      obtain ⟨-, hc, ht, he⟩ := SExpr.form_inj₃ h
      rw [Expr.sexpr_injective hc, Effect.sexpr_injective ht, Effect.sexpr_injective he]
    | _ => cases h
  | .jmp target, e', h => by
    cases e' with
    | jmp target' => rw [Expr.sexpr_injective (SExpr.form_inj₁ h).2]
    | _ => cases h
  | .raise name, e', h => by
    cases e' with
    | raise name' => rw [SExpr.quoted.inj (SExpr.form_inj₁ h).2]
    | _ => cases h

theorem Effect.sexprs_injective : ∀ {es es' : List Effect}, Effect.sexprs es = Effect.sexprs es' → es = es'
  | [], es', h => by
    cases es' with
    | nil => rfl
    | cons e' es' => cases h
  | e :: es, es', h => by
    cases es' with
    | nil => cases h
    | cons e' es' =>
      obtain ⟨he, hes⟩ := List.cons.inj h
      rw [Effect.sexpr_injective he, Effect.sexprs_injective hes]

end

theorem Lifted.sexpr_injective {l l' : Lifted} (h : l.sexpr = l'.sexpr) : l = l' := by
  cases l with
  | effect e =>
    cases l' with
    | effect e' => rw [Effect.sexpr_injective h]
    | exception name' => cases e <;> cases h
  | exception name =>
    cases l' with
    | effect e' => cases e' <;> cases h
    | exception name' => rw [SExpr.quoted.inj (SExpr.form_inj₁ h).2]

/-! ## Different texts of different trees -/

/-- Two trees with the same text are the same tree, if their variables have words for names and their exceptions have names
without quotes. -/
theorem text_unambiguous :
    (∀ e e' : Expr, e.WellNamed → e'.WellNamed → e.text = e'.text → e = e') ∧
      (∀ e e' : Effect, e.WellNamed → e'.WellNamed → e.text = e'.text → e = e') ∧
      ∀ l l' : Lifted, l.WellNamed → l'.WellNamed → l.text = l'.text → l = l' := by
  have hread {t t' : SExpr Operator} (ht : t.Readable) (ht' : t'.Readable)
      (h : t.text Operator.symbol = t'.text Operator.symbol) : t = t' :=
    SExpr.text_inj Operator.symbol_injective Operator.isWord_symbol ht ht' h
  refine ⟨fun e e' he he' h => ?_, fun e e' he he' h => ?_, fun l l' hl hl' h => ?_⟩
  · rw [← e.text_sexpr, ← e'.text_sexpr] at h
    exact Expr.sexpr_injective (hread (Expr.readable_sexpr he) (Expr.readable_sexpr he') h)
  · rw [← e.text_sexpr, ← e'.text_sexpr] at h
    exact Effect.sexpr_injective (hread (Effect.readable_sexpr he) (Effect.readable_sexpr he') h)
  · rw [← l.text_sexpr, ← l'.text_sexpr] at h
    exact Lifted.sexpr_injective (hread (Lifted.readable_sexpr hl) (Lifted.readable_sexpr hl') h)

/-- A constant of 32 bits and one that was cut to them, in a sequence of sequences. -/
theorem text_unambiguous_cut :
    let tree (v : Nat) : Lifted := .effect (.seq [.seq [.setTemp "x" (.msb (.const 32 v))], .raise "no (such) slot", .seq []])
    (tree 1).WellNamed ∧ (tree (2 ^ 32 + 1)).WellNamed ∧ (tree 1).text = (tree (2 ^ 32 + 1)).text ∧
      tree 1 = tree (2 ^ 32 + 1) := by
  intro tree
  have hnamed (v : Nat) : (tree v).WellNamed := by
    have hvar : IsWord "x" := by decide
    have hexception : '"' ∉ "no (such) slot".toList := by decide
    exact ⟨⟨⟨hvar, trivial⟩, trivial⟩, hexception, trivial, trivial⟩
  have htext : (tree 1).text = (tree (2 ^ 32 + 1)).text := by decide
  exact ⟨hnamed _, hnamed _, htext, text_unambiguous.2.2 _ _ (hnamed _) (hnamed _) htext⟩

end SuperH
