import Mathlib.Logic.Function.Basic
import Scriptc.IntInfer.Operators
import Scriptc.Ir.Syntax
import Scriptc.Num.SafeInteger

/-!
# Ranges of exact integers

An interval of integers that f64 holds exactly, without `-0`: the facts with which the
backends replace f64 arithmetic by integer arithmetic. The source keeps the two ends as
numbers; what it computes with them is exact or fails the safe-integer test
(`F64.toSafe_ofInt`), so here they are integers. Both copies in the repository,
`ir/integer-ranges.ts` and `backend/rust/integer-ranges.ts`, have the same ends, sums and
differences; the second adds products and absolute values.
-/

open F64 IntInfer

/-- Exactly representable integers, excluding negative zero. -/
structure IntegerRange where
  min : ℤ
  max : ℤ
  le : min ≤ max
  min_safe : -maxSafeInteger ≤ min
  max_safe : max ≤ maxSafeInteger
  deriving DecidableEq

namespace IntegerRange

variable {a b r : IntegerRange} {x y : F64} {n m : ℤ}

/-- The integer lies between the ends. -/
def Has (r : IntegerRange) (n : ℤ) : Prop := r.min ≤ n ∧ n ≤ r.max

instance (r : IntegerRange) (n : ℤ) : Decidable (r.Has n) := inferInstanceAs (Decidable (_ ∧ _))

/-- The number is an integer between the ends, and not `-0`. -/
def Holds (r : IntegerRange) (x : F64) : Prop := ∃ n, r.Has n ∧ x = ofInt n

theorem Has.isSafe (h : r.Has n) : IsSafe n := ⟨r.min_safe.trans h.1, h.2.trans r.max_safe⟩

/-- A range with computed ends, if both pass the safe-integer test. -/
def ofEnds (lo hi : ℤ) (h : lo ≤ hi) : Option IntegerRange :=
  if hs : IsSafe lo ∧ IsSafe hi then some ⟨lo, hi, h, hs.1.1, hs.2.2⟩ else none

theorem ofEnds_has {lo hi : ℤ} {h : lo ≤ hi} (hr : ofEnds lo hi h = some r) : r.Has n ↔ lo ≤ n ∧ n ≤ hi := by
  unfold ofEnds at hr
  split_ifs at hr
  obtain rfl := Option.some.inj hr
  exact Iff.rfl

def single (n : ℤ) (h : IsSafe n) : IntegerRange := ⟨n, n, le_rfl, h.1, h.2⟩

/-- The range of a literal. -/
def integerLiteral (x : F64) : Option IntegerRange :=
  match h : toSafe x with
  | some n => some (single n (toSafe_eq_some.mp h).1)
  | none => none

theorem integerLiteral_eq_some (h : integerLiteral x = some r) : r.min = r.max ∧ x = ofInt r.min := by
  unfold integerLiteral at h
  split at h
  · rename_i n hn
    obtain rfl := Option.some.inj h
    exact ⟨rfl, (toSafe_eq_some.mp hn).2⟩
  · cases h

theorem integerLiteral_holds (h : integerLiteral x = some r) : r.Holds x :=
  ⟨r.min, ⟨le_rfl, r.le⟩, (integerLiteral_eq_some h).2⟩

/-- The smallest range around two. -/
def merge (a b : IntegerRange) : IntegerRange where
  min := Min.min a.min b.min
  max := Max.max a.max b.max
  le := (min_le_left _ _).trans (a.le.trans (le_max_left _ _))
  min_safe := le_min a.min_safe b.min_safe
  max_safe := max_le a.max_safe b.max_safe

/-- Everything one range has the other has too. -/
def Within (a b : IntegerRange) : Prop := b.min ≤ a.min ∧ a.max ≤ b.max

theorem Within.refl (a : IntegerRange) : a.Within a := ⟨le_rfl, le_rfl⟩

theorem Within.trans {c : IntegerRange} (h : a.Within b) (h' : b.Within c) : a.Within c :=
  ⟨h'.1.trans h.1, h.2.trans h'.2⟩

theorem Within.has (h : a.Within b) (hn : a.Has n) : b.Has n := ⟨h.1.trans hn.1, hn.2.trans h.2⟩

theorem within_merge_left (a b : IntegerRange) : a.Within (merge a b) := ⟨min_le_left _ _, le_max_left _ _⟩

theorem within_merge_right (a b : IntegerRange) : b.Within (merge a b) := ⟨min_le_right _ _, le_max_right _ _⟩

/-! ### Sums and differences -/

def sum (a b : IntegerRange) : Option IntegerRange :=
  ofEnds (a.min + b.min) (a.max + b.max) (add_le_add a.le b.le)

def diff (a b : IntegerRange) : Option IntegerRange :=
  ofEnds (a.min - b.max) (a.max - b.min) (sub_le_sub a.le b.le)

theorem sum_has (h : sum a b = some r) (hn : a.Has n) (hm : b.Has m) : r.Has (n + m) :=
  (ofEnds_has h).mpr ⟨add_le_add hn.1 hm.1, add_le_add hn.2 hm.2⟩

theorem diff_has (h : diff a b = some r) (hn : a.Has n) (hm : b.Has m) : r.Has (n - m) :=
  (ofEnds_has h).mpr ⟨sub_le_sub hn.1 hm.2, sub_le_sub hn.2 hm.1⟩

theorem sum_holds (h : sum a b = some r) (hx : a.Holds x) (hy : b.Holds y) : r.Holds (add x y) := by
  obtain ⟨n, hn, rfl⟩ := hx
  obtain ⟨m, hm, rfl⟩ := hy
  exact ⟨n + m, sum_has h hn hm, add_ofInt hn.isSafe hm.isSafe⟩

theorem diff_holds (h : diff a b = some r) (hx : a.Holds x) (hy : b.Holds y) : r.Holds (sub x y) := by
  obtain ⟨n, hn, rfl⟩ := hx
  obtain ⟨m, hm, rfl⟩ := hy
  exact ⟨n - m, diff_has h hn hm, sub_ofInt hn.isSafe hm.isSafe⟩

/-! ### The results of the bitwise operators -/

/-- `SIGNED`: what a 32-bit operation can give. -/
def signed : IntegerRange where
  min := -2147483648
  max := 2147483647
  le := by decide
  min_safe := by decide
  max_safe := by decide

/-- `UNSIGNED`: what `>>>` can give. -/
def unsigned : IntegerRange where
  min := 0
  max := 4294967295
  le := by decide
  min_safe := by decide
  max_safe := by decide

theorem signed_holds (b : BitVec 32) : signed.Holds (ofInt b.toInt) := by
  have h1 := b.le_toInt
  have h2 := b.toInt_lt
  refine ⟨b.toInt, ⟨?_, ?_⟩, rfl⟩ <;> simp only [signed] <;> omega

theorem unsigned_holds (b : BitVec 32) : unsigned.Holds (ofInt b.toNat) := by
  have h := b.isLt
  refine ⟨b.toNat, ⟨?_, ?_⟩, rfl⟩ <;> simp only [unsigned] <;> omega

/-- The operators whose result is a signed 32-bit integer. -/
def isSignedOp : IrNumBinOp → Bool
  | .bitAnd | .bitOr | .bitXor | .shl | .shr => true
  | _ => false

theorem signed_holds_bin (P : PowApprox) {op : IrNumBinOp} (h : isSignedOp op = true) (x y : F64) :
    signed.Holds (jsBin P op x y) := by
  cases op with
  | bitAnd | bitOr | bitXor | shl | shr => exact signed_holds _
  | _ => cases h

theorem unsigned_holds_bin (P : PowApprox) (x y : F64) : unsigned.Holds (jsBin P .ushr x y) := unsigned_holds _

/-! ### Products and absolute values -/

/-- A product. With a zero on one side and a negative number on the other it could be `-0`. -/
def product (a b : IntegerRange) : Option IntegerRange :=
  if (a.min ≤ 0 ∧ 0 ≤ a.max ∧ b.min < 0) ∨ (b.min ≤ 0 ∧ 0 ≤ b.max ∧ a.min < 0) then none
  else if h : IsSafe (a.min * b.min) ∧ IsSafe (a.min * b.max) ∧ IsSafe (a.max * b.min) ∧ IsSafe (a.max * b.max) then
    some {
      min := Min.min (Min.min (a.min * b.min) (a.min * b.max)) (Min.min (a.max * b.min) (a.max * b.max))
      max := Max.max (Max.max (a.min * b.min) (a.min * b.max)) (Max.max (a.max * b.min) (a.max * b.max))
      le := (min_le_left _ _).trans ((min_le_left _ _).trans ((le_max_left _ _).trans (le_max_left _ _)))
      min_safe := le_min (le_min h.1.1 h.2.1.1) (le_min h.2.2.1.1 h.2.2.2.1)
      max_safe := max_le (max_le h.1.2 h.2.1.2) (max_le h.2.2.1.2 h.2.2.2.2) }
  else none

theorem mul_between {l x h z : ℤ} (h1 : l ≤ x) (h2 : x ≤ h) : Min.min (l * z) (h * z) ≤ x * z ∧ x * z ≤ Max.max (l * z) (h * z) := by
  rcases le_total 0 z with hz | hz
  · exact ⟨(min_le_left _ _).trans (mul_le_mul_of_nonneg_right h1 hz),
      (mul_le_mul_of_nonneg_right h2 hz).trans (le_max_right _ _)⟩
  · exact ⟨(min_le_right _ _).trans (mul_le_mul_of_nonpos_right h2 hz),
      (mul_le_mul_of_nonpos_right h1 hz).trans (le_max_left _ _)⟩

theorem product_has (h : product a b = some r) (hn : a.Has n) (hm : b.Has m) : r.Has (n * m) := by
  unfold product at h
  split_ifs at h
  obtain rfl := Option.some.inj h
  have h0 := mul_between (z := m) hn.1 hn.2
  have h1 := mul_between (z := a.min) hm.1 hm.2
  have h2 := mul_between (z := a.max) hm.1 hm.2
  simp only [mul_comm _ a.min, mul_comm _ a.max] at h1 h2
  exact ⟨(min_le_min h1.1 h2.1).trans h0.1, h0.2.trans (max_le_max h1.2 h2.2)⟩

theorem product_holds (h : product a b = some r) (hn : a.Has n) (hm : b.Has m) :
    mul (ofInt n) (ofInt m) = ofInt (n * m) := by
  have hg : ¬ ((a.min ≤ 0 ∧ 0 ≤ a.max ∧ b.min < 0) ∨ (b.min ≤ 0 ∧ 0 ≤ b.max ∧ a.min < 0)) := by
    intro hg
    rw [product, if_pos hg] at h
    cases h
  obtain ⟨h1, h2⟩ := hn
  obtain ⟨h3, h4⟩ := hm
  refine mul_ofInt (Has.isSafe ⟨h1, h2⟩) (Has.isSafe ⟨h3, h4⟩) ?_ ?_ <;> rintro rfl <;> omega

/-- `Math.abs`. -/
def abs (a : IntegerRange) : IntegerRange where
  min := if a.min ≤ 0 ∧ 0 ≤ a.max then 0 else Min.min |a.min| |a.max|
  max := Max.max |a.min| |a.max|
  le := by
    split_ifs
    · exact (abs_nonneg a.min).trans (le_max_left _ _)
    · exact (min_le_left _ _).trans (le_max_left _ _)
  min_safe := by
    have h1 := abs_nonneg a.min
    have h2 := abs_nonneg a.max
    unfold maxSafeInteger
    split_ifs <;> omega
  max_safe := by
    have := a.le
    have := a.min_safe
    have := a.max_safe
    refine max_le (abs_le.mpr ⟨?_, ?_⟩) (abs_le.mpr ⟨?_, ?_⟩) <;> omega

theorem abs_has (hn : a.Has n) : a.abs.Has |n| := by
  obtain ⟨h1, h2⟩ := hn
  refine ⟨?_, ?_⟩
  · simp only [abs]
    split_ifs with h
    · exact abs_nonneg n
    · rcases lt_or_ge 0 a.min with h0 | h0
      · refine (min_le_left _ _).trans ?_
        rwa [abs_of_pos h0, abs_of_pos (h0.trans_le h1)]
      · refine (min_le_right _ _).trans ?_
        have hm : a.max < 0 := by omega
        rw [abs_of_neg hm, abs_of_neg (h2.trans_lt hm)]
        omega
  · exact abs_le_max_abs_abs h1 h2

/-- `combineIntegerRanges`: exact integers only. -/
def combineIntegerRanges (op : IrNumBinOp) (a b : IntegerRange) : Option IntegerRange :=
  match op with
  | .add => sum a b
  | .sub => diff a b
  | .mul => product a b
  | _ => none

/-- The operators on integers. -/
def intArith : IrNumBinOp → ℤ → ℤ → Option ℤ
  | .add, x, y => some (x + y)
  | .sub, x, y => some (x - y)
  | .mul, x, y => some (x * y)
  | _, _, _ => none

/-- Where a range is known, the operator on f64 is the operator on integers. -/
theorem combineIntegerRanges_spec {op : IrNumBinOp} (P : PowApprox) (h : combineIntegerRanges op a b = some r)
    (hn : a.Has n) (hm : b.Has m) :
    op.isArith = true ∧ ∃ k, intArith op n m = some k ∧ r.Has k ∧ jsBin P op (ofInt n) (ofInt m) = ofInt k := by
  cases op with
  | add => exact ⟨rfl, _, rfl, sum_has h hn hm, add_ofInt hn.isSafe hm.isSafe⟩
  | sub => exact ⟨rfl, _, rfl, diff_has h hn hm, sub_ofInt hn.isSafe hm.isSafe⟩
  | mul => exact ⟨rfl, _, rfl, product_has h hn hm, product_holds h hn hm⟩
  | _ => cases h

/-- The comparisons on integers. -/
def intCmp : IrNumBinOp → ℤ → ℤ → Option Bool
  | .lt, x, y => some (x < y)
  | .le, x, y => some (x ≤ y)
  | .gt, x, y => some (y < x)
  | .ge, x, y => some (y ≤ x)
  | _, _, _ => none

end IntegerRange

/-!
## The integer-range analysis

`analyzeIntegerRanges` of `ir/integer-ranges.ts`. Facts about locals flow through
straight-line statements and through the numeric expressions; every other expression and
every control-flow statement discards them, and nested bodies start without any.

The source collects its results in a map keyed by the expression objects. An object may
occur at several places of the body, so the map here is keyed by what a function `ident`
gives for a place, and the occurrences of one object are the places with one identity. The
analysis only ever writes to the map, so it is kept apart: it gives the list of its updates,
in order, which are then applied.
-/

namespace Ir

open IntInfer F64 IntegerRange

/-- A place in a function's body: the numbers of the parts on the way to it, the innermost
first. -/
abbrev Path := List Nat

/-! ### The places an opaque node covers -/

mutual
/-- The place of an expression and those of everything in it. -/
def Expr.places : Expr → Path → List Path
  | .assignExpr _ v, p => p :: v.places (0 :: p)
  | .ternary c a b _, p => p :: (c.places (0 :: p) ++ (a.places (1 :: p) ++ b.places (2 :: p)))
  | .short _ l r _, p | .optChain l r _, p => p :: (l.places (0 :: p) ++ r.places (1 :: p))
  | .seqExpr ss r, p => p :: (stmtsPlaces ss (0 :: p) 0 ++ r.places (1 :: p))
  | .node _ args _, p => p :: exprsPlaces args p 0
  | .numLit _ _, p | .boolLit _, p | .unitLit _, p | .leaf _ _, p | .selfRef _, p | .varRef _ _, p
  | .incDec _ _ _, p => [p]

/-- Expressions side by side, from part `i` of `p` on. -/
def exprsPlaces : List Expr → Path → Nat → List Path
  | [], _, _ => []
  | e :: es, p, i => e.places (i :: p) ++ exprsPlaces es p (i + 1)

def Stmt.places : Stmt → Path → List Path
  | .varDecl _ i, p => p :: optExprPlaces i (0 :: p)
  | .ret v, p => p :: optExprPlaces v (0 :: p)
  | .assign _ e, p | .exprStmt e, p | .throwStmt e, p => p :: e.places (0 :: p)
  | .ifElse c a b, p => p :: (c.places (0 :: p) ++ (stmtsPlaces a (1 :: p) 0 ++ optStmtsPlaces b (2 :: p)))
  | .whileStmt c b _, p | .doWhile b c _, p => p :: (c.places (0 :: p) ++ stmtsPlaces b (1 :: p) 0)
  | .forStmt i c u b _, p =>
    p :: (optStmtPlaces i (0 :: 3 :: p) ++ (optExprPlaces c (0 :: p) ++ (optStmtPlaces u (2 :: p) ++
      stmtsPlaces b (1 :: p) 0)))
  | .forOf _ it b _, p => p :: (it.places (3 :: p) ++ stmtsPlaces b (1 :: p) 0)
  | .switch d cs _, p => p :: (d.places (0 :: p) ++ casesPlaces cs (1 :: p) 0)
  | .heapWrite _ args, p => p :: exprsPlaces args p 0
  | .recordSet _ _ o v, p | .recordKeyDelete _ o v, p => p :: (o.places (0 :: p) ++ v.places (1 :: p))
  | .recordKeySet _ _ o k v, p => p :: (o.places (0 :: p) ++ (k.places (1 :: p) ++ v.places (2 :: p)))
  | .block b _, p => p :: stmtsPlaces b (1 :: p) 0
  | .tryCatch t c _ f, p =>
    p :: (stmtsPlaces t (0 :: p) 0 ++ (optStmtsPlaces c (1 :: p) ++ optStmtsPlaces f (2 :: p)))
  | .rethrow, p | .runtimeFence, p | .breakStmt _, p | .continueStmt _, p => [p]

def optExprPlaces : Option Expr → Path → List Path
  | none, _ => []
  | some e, p => e.places p

def optStmtPlaces : Option Stmt → Path → List Path
  | none, _ => []
  | some s, p => s.places p

def optStmtsPlaces : Option (List Stmt) → Path → List Path
  | none, _ => []
  | some ss, p => stmtsPlaces ss p 0

def stmtsPlaces : List Stmt → Path → Nat → List Path
  | [], _, _ => []
  | s :: ss, p, i => s.places (i :: p) ++ stmtsPlaces ss p (i + 1)

def casesPlaces : List SwitchCase → Path → Nat → List Path
  | [], _, _ => []
  | .mk t b :: cs, p, i =>
    optExprPlaces t (0 :: i :: p) ++ (stmtsPlaces b (1 :: i :: p) 0 ++ casesPlaces cs p (i + 1))
end

/-! ### The analysis -/

/-- What the analysis does to its map. -/
inductive Update where
  /-- `remember`: the expression at the place was visited, with what is known of its value. -/
  | remember (p : Path) (range : Option IntegerRange)
  /-- `opaque`: nothing is known. -/
  | forget (p : Path)
  deriving DecidableEq

def forgetAll (qs : List Path) : List Update := qs.map .forget

/-- What is known of the bindings. -/
abbrev Facts := Id → Option IntegerRange

def Facts.clear : Facts := fun _ => none

/-- The facts after a write of a value of the range. -/
def Facts.write (F : Facts) (eligible : Id → Bool) (id : Id) (range : Option IntegerRange) : Facts :=
  Function.update F id (if eligible id then range else none)

/-- The range of a binary expression from those of its operands. -/
def binRange (op : IrNumBinOp) (ty : Ty) (left right : Option IntegerRange) : Option IntegerRange :=
  if ty ≠ .f64 then none
  else if op = .ushr then some unsigned
  else if isSignedOp op then some signed
  else
    match op, left, right with
    | .add, some a, some b => sum a b
    | .sub, some a, some b => diff a b
    | _, _, _ => none

/-- What visiting an expression gives: what is known of its value, the facts after it, and the
updates of the map. -/
structure Visit where
  range : Option IntegerRange
  facts : Facts
  updates : List Update

/-- `expr`. The operands are visited in source order: an opaque right operand may invalidate
facts, but not the value of the left one. -/
def rangeExpr : Expr → Path → Facts → Visit
  | .numLit x _, p, F => ⟨integerLiteral x, F, [.remember p (integerLiteral x)]⟩
  | .varRef id _, p, F => ⟨F id, F, [.remember p (F id)]⟩
  | .node (.bin op) [l, r] ty, p, F =>
    let a := rangeExpr l (0 :: p) F
    let b := rangeExpr r (1 :: p) a.facts
    let range := binRange op ty a.range b.range
    ⟨range, b.facts, a.updates ++ b.updates ++ [.remember p range]⟩
  | .node (.unary op) [e] _, p, F =>
    let a := rangeExpr e (0 :: p) F
    let range := if op = .bitNot then some signed else none
    ⟨range, a.facts, a.updates ++ [.remember p range]⟩
  | e, p, _ => ⟨none, .clear, forgetAll (e.places p)⟩

section Statements

variable (eligible : Id → Bool)

mutual
/-- One statement of `body`: the facts after it, and the updates. -/
def rangeStmt : Stmt → Path → Facts → Facts × List Update
  | .varDecl x none, _, F => (F.write eligible (.loc x) none, [])
  | .varDecl x (some e), p, F =>
    let v := rangeExpr e (0 :: p) F
    (v.facts.write eligible (.loc x) v.range, v.updates)
  | .assign id e, p, F =>
    let v := rangeExpr e (0 :: p) F
    (v.facts.write eligible id v.range, v.updates)
  | .ret none, _, _ => (.clear, [])
  | .ret (some e), p, F => (.clear, (rangeExpr e (0 :: p) F).updates)
  | .exprStmt e, p, F => ((rangeExpr e (0 :: p) F).facts, (rangeExpr e (0 :: p) F).updates)
  -- only statement lists are visited; headers, conditions and selectors are not
  | .ifElse c a b, p, _ =>
    (.clear, forgetAll (c.places (0 :: p)) ++ (rangeStmts a (1 :: p) 0 .clear ++ rangeOptStmts b (2 :: p)))
  | .whileStmt c b _, p, _ => (.clear, forgetAll (c.places (0 :: p)) ++ rangeStmts b (1 :: p) 0 .clear)
  | .doWhile b c _, p, _ => (.clear, rangeStmts b (1 :: p) 0 .clear ++ forgetAll (c.places (0 :: p)))
  | .forStmt i c u b _, p, _ =>
    (.clear, forgetAll (optStmtPlaces i (0 :: 3 :: p)) ++ (forgetAll (optExprPlaces c (0 :: p)) ++
      (forgetAll (optStmtPlaces u (2 :: p)) ++ rangeStmts b (1 :: p) 0 .clear)))
  | .forOf _ it b _, p, _ => (.clear, forgetAll (it.places (3 :: p)) ++ rangeStmts b (1 :: p) 0 .clear)
  | .switch d cs _, p, _ => (.clear, forgetAll (d.places (0 :: p)) ++ rangeCases cs (1 :: p) 0)
  | .block b _, p, _ => (.clear, rangeStmts b (1 :: p) 0 .clear)
  | .tryCatch t c _ f, p, _ =>
    (.clear, rangeStmts t (0 :: p) 0 .clear ++ (rangeOptStmts c (1 :: p) ++ rangeOptStmts f (2 :: p)))
  | .heapWrite _ args, p, _ => (.clear, forgetAll (exprsPlaces args p 0))
  | .recordSet _ _ o v, p, _ | .recordKeyDelete _ o v, p, _ => (.clear, forgetAll (exprsPlaces [o, v] p 0))
  | .recordKeySet _ _ o k v, p, _ => (.clear, forgetAll (exprsPlaces [o, k, v] p 0))
  | .throwStmt e, p, _ => (.clear, forgetAll (e.places (0 :: p)))
  | .rethrow, _, _ | .runtimeFence, _, _ | .breakStmt _, _, _ | .continueStmt _, _, _ => (.clear, [])

/-- The rest of a `body`, from statement `i` on. -/
def rangeStmts : List Stmt → Path → Nat → Facts → List Update
  | [], _, _, _ => []
  | s :: ss, p, i, F => (rangeStmt s (i :: p) F).2 ++ rangeStmts ss p (i + 1) (rangeStmt s (i :: p) F).1

def rangeOptStmts : Option (List Stmt) → Path → List Update
  | none, _ => []
  | some ss, p => rangeStmts ss p 0 .clear

def rangeCases : List SwitchCase → Path → Nat → List Update
  | [], _, _ => []
  | .mk t b :: cs, p, i =>
    forgetAll (optExprPlaces t (0 :: i :: p)) ++ (rangeStmts b (1 :: i :: p) 0 .clear ++ rangeCases cs p (i + 1))
end

end Statements

/-! ### The map -/

/-- The map of the results: an expression may be absent, known to be an integer in a range, or
have an explicit `null`. -/
abbrev IntegerRanges (α : Type*) := α → Option (Option IntegerRange)

/-- What `remember` stores over an earlier entry: an unknown occurrence invalidates the fact. -/
def mergeKnown : Option IntegerRange → Option IntegerRange → Option IntegerRange
  | some a, some b => some (merge a b)
  | _, _ => none

section Map

variable {α : Type*} [DecidableEq α] (ident : Path → α)

def Update.apply (R : IntegerRanges α) : Update → IntegerRanges α
  | .remember p range =>
    Function.update R (ident p) (some (match R (ident p) with
      | none => range
      | some previous => mergeKnown previous range))
  | .forget p => Function.update R (ident p) (some none)

def applyAll (updates : List Update) : IntegerRanges α := updates.foldl (Update.apply ident) fun _ => none

end Map

/-- A function with the parts of its header that the analysis reads. -/
structure IrFunctionHeader extends IrFunction where
  async : Bool
  generator : Bool
  /-- The captured locals, and the locals with a check for use before initialization. -/
  captures : Option (List String)
  tdz : List String

/-- The locals that facts are kept about. -/
def IrFunctionHeader.eligible (fn : IrFunctionHeader) : Id → Bool
  | .loc x =>
    fn.locals.any (fun l => l.id == x && l.ty == .f64 && !l.boxed && !fn.tdz.contains x) &&
      !(fn.captures.getD []).contains x
  | .glob _ => false

def analyzeIntegerRanges {α : Type*} [DecidableEq α] (fn : IrFunctionHeader) (ident : Path → α) : IntegerRanges α :=
  if fn.async || fn.generator then fun _ => none
  else applyAll ident (rangeStmts fn.eligible fn.body [] 0 .clear)

end Ir
