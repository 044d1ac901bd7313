import Mathlib

/-!
# Evaluation of integer expressions

An expression is evaluated into the one result slot of its context. A binary
operation saves the slot after its first operand and reads the second operand's
result there; both are brought to the first one's kind. Multiplication divides.
-/
namespace Mai.SqlExpression
open List

inductive Value
  | null
  | u64 (val : UInt64)
  | i64 (val : Int64)
  deriving DecidableEq, Repr

inductive Kind
  | null
  | u64
  | i64
  deriving DecidableEq, Repr

inductive Status
  | ok
  | corruption (message : String)
  deriving DecidableEq, Repr

inductive SQLOperator
  | minus
  | not
  | bitInv
  | isNull
  | isNotNull
  | cmpStrictEq
  | cmpEq
  | cmpNe
  | cmpGt
  | cmpGe
  | cmpLt
  | cmpLe
  | plus
  | sub
  | mul
  | div
  | mod
  | bitXor
  | bitAnd
  | bitOr
  | and
  | or
  | xor
  deriving DecidableEq, Repr

structure Context where
  result : Value
  deriving DecidableEq, Repr

inductive Expression
  | constant (data : Value)
  | unary (op : SQLOperator) (operand : Expression)
  | binary (op : SQLOperator) (lhs rhs : Expression)
  deriving DecidableEq, Repr

namespace Value

def kind : Value → Kind
  | null => .null
  | u64 _ => .u64
  | i64 _ => .i64

def toNumeric (v : Value) (hint : Kind) : Value :=
  match v with
  | null => null
  | i64 x => if hint = .u64 then u64 x.toUInt64 else i64 x
  | u64 x => if hint = .i64 then i64 x.toInt64 else u64 x

def isZero : Value → Bool
  | null => false
  | u64 x => x = 0
  | i64 x => x = 0

def strictEquals : Value → Value → Bool
  | null, null => true
  | i64 x, i64 y => x = y
  | _, _ => false

def compareVal {α : Type} [LT α] [DecidableEq α] [DecidableLT α] (lhs rhs : α) : ℤ :=
  if lhs = rhs then 0 else if lhs < rhs then -1 else 1

def compare : Value → Value → ℤ
  | i64 x, i64 y => compareVal x y
  | i64 x, u64 y => if x < 0 then -1 else compareVal x.toUInt64 y
  | u64 x, u64 y => compareVal x y
  | u64 x, i64 y => if y < 0 then 1 else compareVal x y.toUInt64
  | _, _ => 0

end Value

def Context.setBool (ctx : Context) (value : Bool) : Context :=
  { ctx with result := .i64 (if value then 1 else 0) }

def quotient (lhs rhs : Int64) : Option Int64 :=
  if rhs = 0 ∨ (lhs = Int64.minValue ∧ rhs = -1) then none else some (lhs / rhs)

def remainder (lhs rhs : Int64) : Option Int64 :=
  if rhs = 0 ∨ (lhs = Int64.minValue ∧ rhs = -1) then none else some (lhs % rhs)

def unsignedQuotient (lhs rhs : UInt64) : Option UInt64 :=
  if rhs = 0 then none else some (lhs / rhs)

def unsignedRemainder (lhs rhs : UInt64) : Option UInt64 :=
  if rhs = 0 then none else some (lhs % rhs)

/-- `DO_REAL_NUMBER` with the overloads of one operator: no result when the machine traps. -/
def doRealNumber (signed : Int64 → Int64 → Option Int64)
    (unsigned : UInt64 → UInt64 → Option UInt64) (lhs rhs : Value) (ctx : Context) :
    Option (Status × Context) :=
  match lhs, rhs with
  | .i64 x, .i64 y => (signed x y).map fun v => (.ok, { ctx with result := .i64 v })
  | .u64 x, .u64 y => (unsigned x y).map fun v => (.ok, { ctx with result := .u64 v })
  | _, _ => some (.ok, ctx)

def doArithPlus := doRealNumber (fun x y => some (x + y)) (fun x y => some (x + y))

def doArithSub := doRealNumber (fun x y => some (x - y)) (fun x y => some (x - y))

def doArithMul := doRealNumber quotient unsignedQuotient

def doArithDiv := doRealNumber quotient unsignedQuotient

def doArithMod := doRealNumber remainder unsignedRemainder

def defIntArith (op : UInt64 → UInt64 → UInt64) (lhs rhs : Value) (ctx : Context) :
    Option (Status × Context) :=
  match lhs.toNumeric .u64, rhs.toNumeric .u64 with
  | .u64 x, .u64 y => some (.ok, { ctx with result := .u64 (op x y) })
  | _, _ => some (.ok, ctx)

def logic (op : Bool → Bool → Bool) (lhs rhs : UInt64) : UInt64 :=
  if op (lhs ≠ 0) (rhs ≠ 0) then 1 else 0

def unaryOperation (op : SQLOperator) (ctx : Context) : Context :=
  match op with
  | .minus =>
    match ctx.result with
    | .null => ctx
    | .i64 x => { ctx with result := .i64 (-x) }
    | .u64 x => { ctx with result := .u64 (-x) }
  | .bitInv =>
    match ctx.result.toNumeric .u64 with
    | .u64 x => { ctx with result := .u64 (~~~x) }
    | _ => ctx
  | .isNull => ctx.setBool (ctx.result = .null)
  | .isNotNull => ctx.setBool (ctx.result ≠ .null)
  -- `SQL_NOT` leaves an integer as it is
  | _ => ctx

def binaryOperation (op : SQLOperator) (lhs : Value) (ctx : Context) :
    Option (Status × Context) :=
  if op = .cmpStrictEq then some (.ok, ctx.setBool (lhs.strictEquals ctx.result))
  else if lhs = .null ∨ ctx.result = .null then some (.ok, { ctx with result := .null })
  else
    let rhs := ctx.result.toNumeric lhs.kind
    match op with
    | .cmpEq => some (.ok, ctx.setBool (lhs.compare ctx.result = 0))
    | .cmpNe => some (.ok, ctx.setBool (lhs.compare ctx.result ≠ 0))
    | .cmpGt => some (.ok, ctx.setBool (0 < lhs.compare ctx.result))
    | .cmpGe => some (.ok, ctx.setBool (0 ≤ lhs.compare ctx.result))
    | .cmpLt => some (.ok, ctx.setBool (lhs.compare ctx.result < 0))
    | .cmpLe => some (.ok, ctx.setBool (lhs.compare ctx.result ≤ 0))
    | .plus => doArithPlus lhs rhs ctx
    | .sub => doArithSub lhs rhs ctx
    | .mul => doArithMul lhs rhs ctx
    | .div =>
      if rhs.isZero then some (.corruption "Division zero.", ctx) else doArithDiv lhs rhs ctx
    | .mod =>
      if rhs.isZero then some (.corruption "Division zero.", ctx) else doArithMod lhs rhs ctx
    | .bitXor => defIntArith (· ^^^ ·) lhs ctx.result ctx
    | .bitAnd => defIntArith (· &&& ·) lhs ctx.result ctx
    | .bitOr => defIntArith (· ||| ·) lhs ctx.result ctx
    | .and => defIntArith (logic (· && ·)) lhs ctx.result ctx
    | .or => defIntArith (logic (· || ·)) lhs ctx.result ctx
    | .xor => defIntArith (logic (· ^^ ·)) lhs ctx.result ctx
    | _ => some (.ok, ctx)

namespace Expression

/-- `Evaluate`: the status and the context it leaves, and none when the machine traps. -/
def evaluate : Expression → Context → Option (Status × Context)
  | constant data, ctx => some (.ok, { ctx with result := data })
  | unary op operand, ctx =>
    (operand.evaluate ctx).bind fun r =>
      if r.1 = .ok then some (.ok, unaryOperation op r.2) else some r
  | binary op lhs rhs, ctx =>
    (lhs.evaluate ctx).bind fun l =>
      if l.1 = .ok then
        (rhs.evaluate l.2).bind fun r =>
          if r.1 = .ok then binaryOperation op l.2.result r.2 else some r
      else some l

end Expression

inductive ArithOperator
  | plus
  | sub
  | mul
  | div
  | mod
  deriving DecidableEq, Repr

inductive Arith
  | integer (val : Int64)
  | null
  | minus (operand : Arith)
  | binary (op : ArithOperator) (lhs rhs : Arith)
  deriving DecidableEq, Repr

inductive Meaning
  | null
  | divisionByZero
  | integer (val : Int64)
  deriving DecidableEq, Repr

def ArithOperator.sql : ArithOperator → SQLOperator
  | plus => .plus
  | sub => .sub
  | mul => .mul
  | div => .div
  | mod => .mod

def ArithOperator.apply (op : ArithOperator) (x y : Int64) : Meaning :=
  match op with
  | plus => .integer (x + y)
  | sub => .integer (x - y)
  | mul => .integer (x * y)
  | div => if y = 0 then .divisionByZero else .integer (x / y)
  | mod => if y = 0 then .divisionByZero else .integer (x % y)

def ArithOperator.Faithful (op : ArithOperator) (x y : Int64) : Prop :=
  match op with
  | plus | sub => True
  | mul => y ≠ 0 ∧ ¬ (x = Int64.minValue ∧ y = -1) ∧ x / y = x * y
  | div | mod => ¬ (x = Int64.minValue ∧ y = -1)

namespace Arith

def build : Arith → Expression
  | integer val => .constant (.i64 val)
  | null => .constant .null
  | minus operand => .unary .minus operand.build
  | binary op lhs rhs => .binary op.sql lhs.build rhs.build

def meaning : Arith → Meaning
  | integer val => .integer val
  | null => .null
  | minus operand =>
    match operand.meaning with
    | .integer val => .integer (-val)
    | .null => .null
    | .divisionByZero => .divisionByZero
  | binary op lhs rhs =>
    match lhs.meaning, rhs.meaning with
    | .divisionByZero, _ => .divisionByZero
    | _, .divisionByZero => .divisionByZero
    | .integer x, .integer y => op.apply x y
    | _, _ => .null

def Right (t : Arith) : Prop :=
  ∀ ctx, match t.meaning with
    | .null => t.build.evaluate ctx = some (.ok, { ctx with result := .null })
    | .integer val => t.build.evaluate ctx = some (.ok, { ctx with result := .i64 val })
    | .divisionByZero =>
      ∃ ctx', t.build.evaluate ctx = some (.corruption "Division zero.", ctx')

def reached : Arith → List Arith
  | integer val => [integer val]
  | null => [null]
  | minus operand => minus operand :: operand.reached
  | binary op lhs rhs =>
    binary op lhs rhs :: lhs.reached
      ++ (if lhs.meaning = .divisionByZero then [] else rhs.reached)

def Exact : Arith → Prop
  | integer _ => True
  | null => True
  | minus operand => operand.Exact
  | binary op lhs rhs =>
    lhs.Exact ∧ (lhs.meaning ≠ .divisionByZero → rhs.Exact)
      ∧ ∀ x y, lhs.meaning = .integer x → rhs.meaning = .integer y → op.Faithful x y

lemma mem_reached_self (t : Arith) : t ∈ t.reached := by
  cases t <;> simp [reached]

variable {t : Arith}

lemma right_minus (h : t.Right) : (minus t).Right := by
  intro ctx
  have hctx := h ctx
  cases hmean : t.meaning with
  | null =>
    rw [hmean] at hctx
    simp [meaning, hmean, build, Expression.evaluate, hctx, unaryOperation]
  | integer val =>
    rw [hmean] at hctx
    simp [meaning, hmean, build, Expression.evaluate, hctx, unaryOperation]
  | divisionByZero =>
    rw [hmean] at hctx
    obtain ⟨ctx', hrun⟩ := hctx
    simp [meaning, hmean, build, Expression.evaluate, hrun]

lemma binaryOperation_integers (op : ArithOperator) (x y : Int64) (ctx : Context)
    (hctx : ctx.result = .i64 y) :
    (match op.apply x y with
      | .null => binaryOperation op.sql (.i64 x) ctx = some (.ok, { ctx with result := .null })
      | .integer val =>
        binaryOperation op.sql (.i64 x) ctx = some (.ok, { ctx with result := .i64 val })
      | .divisionByZero =>
        ∃ ctx', binaryOperation op.sql (.i64 x) ctx = some (.corruption "Division zero.", ctx'))
      ↔ op.Faithful x y := by
  have hnull : ¬ (Value.i64 x = .null ∨ ctx.result = .null) := by
    rw [hctx]
    simp
  have hrhs : ctx.result.toNumeric (Value.i64 x).kind = .i64 y := by
    rw [hctx]
    rfl
  cases op with
  | plus =>
    simp only [binaryOperation, ArithOperator.sql, ArithOperator.apply, ArithOperator.Faithful,
      hnull, hrhs, doArithPlus, doRealNumber]
    simp
  | sub =>
    simp only [binaryOperation, ArithOperator.sql, ArithOperator.apply, ArithOperator.Faithful,
      hnull, hrhs, doArithSub, doRealNumber]
    simp
  | mul =>
    simp only [binaryOperation, ArithOperator.sql, ArithOperator.apply, ArithOperator.Faithful,
      hnull, hrhs, doArithMul, doRealNumber, quotient]
    by_cases htrap : y = 0 ∨ (x = Int64.minValue ∧ y = -1)
    · simp [htrap]
      tauto
    · simp [htrap]
      tauto
  | div =>
    simp only [binaryOperation, ArithOperator.sql, ArithOperator.apply, ArithOperator.Faithful,
      hnull, hrhs, doArithDiv, doRealNumber, quotient, Value.isZero]
    by_cases hzero : y = 0
    · simp [hzero]
    · by_cases htrap : x = Int64.minValue ∧ y = -1
      · simp [htrap]
      · simp [hzero, htrap]
  | mod =>
    simp only [binaryOperation, ArithOperator.sql, ArithOperator.apply, ArithOperator.Faithful,
      hnull, hrhs, doArithMod, doRealNumber, remainder, Value.isZero]
    by_cases hzero : y = 0
    · simp [hzero]
    · by_cases htrap : x = Int64.minValue ∧ y = -1
      · simp [htrap]
      · simp [hzero, htrap]

lemma right_binary_iff {op : ArithOperator} {a b : Arith} (ha : a.Right)
    (hb : a.meaning ≠ .divisionByZero → b.Right) :
    (binary op a b).Right
      ↔ ∀ x y, a.meaning = .integer x → b.meaning = .integer y → op.Faithful x y := by
  cases hmean : a.meaning with
  | divisionByZero =>
    refine iff_of_true (fun ctx => ?_) (by simp)
    have hrun := ha ctx
    rw [hmean] at hrun
    obtain ⟨ctx', hrun⟩ := hrun
    simp [meaning, hmean, build, Expression.evaluate, hrun]
  | null =>
    refine iff_of_true (fun ctx => ?_) (by simp)
    have hrun := ha ctx
    rw [hmean] at hrun
    have hsecond := hb (by simp [hmean]) { ctx with result := .null }
    cases hmean' : b.meaning with
    | divisionByZero =>
      rw [hmean'] at hsecond
      obtain ⟨ctx', hsecond⟩ := hsecond
      simp [meaning, hmean, hmean', build, Expression.evaluate, hrun, hsecond]
    | null =>
      rw [hmean'] at hsecond
      cases op <;> simp [meaning, hmean, hmean', build, Expression.evaluate, hrun, hsecond,
        binaryOperation, ArithOperator.sql]
    | integer y =>
      rw [hmean'] at hsecond
      cases op <;> simp [meaning, hmean, hmean', build, Expression.evaluate, hrun, hsecond,
        binaryOperation, ArithOperator.sql]
  | integer x =>
    have hfirst : ∀ ctx, a.build.evaluate ctx = some (.ok, { ctx with result := .i64 x }) := by
      intro ctx
      have hrun := ha ctx
      rwa [hmean] at hrun
    have hright : ∀ ctx : Context, _ := hb (by simp [hmean])
    cases hmean' : b.meaning with
    | divisionByZero =>
      refine iff_of_true (fun ctx => ?_) (by simp)
      have hsecond := hright { ctx with result := .i64 x }
      rw [hmean'] at hsecond
      obtain ⟨ctx', hsecond⟩ := hsecond
      simp [meaning, hmean, hmean', build, Expression.evaluate, hfirst, hsecond]
    | null =>
      refine iff_of_true (fun ctx => ?_) (by simp)
      have hsecond := hright { ctx with result := .i64 x }
      rw [hmean'] at hsecond
      cases op <;> simp [meaning, hmean, hmean', build, Expression.evaluate, hfirst, hsecond,
        binaryOperation, ArithOperator.sql]
    | integer y =>
      have hrun : ∀ ctx, (binary op a b).build.evaluate ctx
          = binaryOperation op.sql (.i64 x) { ctx with result := .i64 y } := by
        intro ctx
        have hsecond := hright { ctx with result := .i64 x }
        rw [hmean'] at hsecond
        simp [build, Expression.evaluate, hfirst, hsecond]
      have hmeans : (binary op a b).meaning = op.apply x y := by
        simp only [meaning, hmean, hmean']
      have hstep := fun ctx : Context =>
        binaryOperation_integers op x y { ctx with result := .i64 y } rfl
      constructor
      · rintro h x' y' hx hy
        obtain rfl := Meaning.integer.inj hx
        obtain rfl := Meaning.integer.inj hy
        refine (hstep ⟨.null⟩).mp ?_
        have hright := h ⟨.null⟩
        rw [hmeans, hrun] at hright
        exact hright
      · intro h ctx
        rw [hmeans, hrun]
        exact (hstep ctx).mpr (h x y rfl rfl)

lemma right_of_exact (h : t.Exact) : t.Right := by
  induction t with
  | integer val => exact fun ctx => rfl
  | null => exact fun ctx => rfl
  | minus t ih => exact right_minus (ih h)
  | binary op a b iha ihb =>
    obtain ⟨ha, hb, hop⟩ := h
    exact (right_binary_iff (iha ha) fun hne => ihb (hb hne)).mpr hop

lemma exact_of_reached (h : ∀ s ∈ t.reached, s.Right) : t.Exact := by
  induction t with
  | integer val => trivial
  | null => trivial
  | minus t ih => exact ih fun s hs => h s (mem_cons_of_mem _ hs)
  | binary op a b iha ihb =>
    have hleft : ∀ s ∈ a.reached, s.Right := fun s hs => h s (by simp [reached, hs])
    have hright : a.meaning ≠ .divisionByZero → ∀ s ∈ b.reached, s.Right :=
      fun hne s hs => h s (by simp [reached, hne, hs])
    refine ⟨iha hleft, fun hne => ihb (hright hne), ?_⟩
    exact (right_binary_iff (hleft a a.mem_reached_self)
      fun hne => hright hne b b.mem_reached_self).mp (h _ (mem_reached_self _))

lemma exact_of_mem_reached {t s : Arith} (h : t.Exact) (hs : s ∈ t.reached) : s.Exact := by
  induction t with
  | integer val =>
    obtain rfl := mem_singleton.mp hs
    exact h
  | null =>
    obtain rfl := mem_singleton.mp hs
    exact h
  | minus t ih =>
    rcases mem_cons.mp hs with rfl | hs
    · exact h
    · exact ih h hs
  | binary op a b iha ihb =>
    rw [reached, cons_append, mem_cons, mem_append] at hs
    rcases hs with rfl | hs | hs
    · exact h
    · exact iha h.1 hs
    · split_ifs at hs with hzero
      · cases hs
      · exact ihb (h.2.1 hzero) hs

end Arith

/-- A tree is evaluated right when the code is faithful on every operation that is reached with
two integers; and only then are all the operations that are reached evaluated right. -/
theorem evaluate_arith_iff (t : Arith) :
    (t.Exact → t.Right) ∧ ((∀ s ∈ t.reached, s.Right) ↔ t.Exact) :=
  ⟨Arith.right_of_exact, Arith.exact_of_reached,
    fun h _ hs => Arith.right_of_exact (Arith.exact_of_mem_reached h hs)⟩

/-- A product is evaluated as a quotient. -/
theorem evaluate_twoTimesThree :
    (Arith.binary .mul (.integer 2) (.integer 3)).meaning = .integer 6
      ∧ (Arith.binary .mul (.integer 2) (.integer 3)).build.evaluate ⟨.null⟩
        = some (.ok, ⟨.i64 0⟩)
      ∧ (Arith.binary .mul (.integer 3) (.integer 0)).build.evaluate ⟨.null⟩ = none := by
  decide +kernel

end Mai.SqlExpression
