import Mai.CoreDecimalDiv

/-!
# Square roots of decimals

`Sqrt` runs Newton's iteration from the decimal 1 for at most 1024 rounds and halves the exponent
afterwards, so that the root of a decimal whose exponent is beyond one has another exponent.
-/
namespace Mai.CoreDecimal

open Mai.BaseBig

namespace Decimal

def sqrtRound (chunk : ℕ → UInt32) (n y : Words) : Option Words :=
  (divRaw n y).bind fun t1 =>
    ((⟨false, 0, y⟩ : Decimal).add ⟨false, 0, t1.1⟩ chunk).bind fun t2 =>
      (divWord t2.segments 2).map Prod.fst

def sqrtLoop (chunk : ℕ → ℕ → UInt32) (n : Words) : ℕ → Words → Option Words
  | 0, y => some y
  | k + 1, y => (sqrtRound (chunk k) n y).bind fun x => if BaseBig.compare x y = 0 then some y
      else sqrtLoop chunk n k x

def sqrt (before : UInt32) (chunk : ℕ → ℕ → UInt32) (d : Decimal) : Option Decimal :=
  if d.negative then none
  else
    ((newOne false).newPrecision before d.exp).bind fun y =>
      (if d.exp % 2 = 1 then (getFastPow10 1).map (basicMul before d.segments)
        else some d.segments).bind fun n =>
        (sqrtLoop chunk n 1024 y.segments).map fun z => ⟨false, (d.exp + d.exp % 2) / 2, z⟩

end Decimal

end Mai.CoreDecimal
