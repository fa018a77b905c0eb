import Fon9.Bitv.Decode
import Mathlib.Data.Rat.Floor

/-! `AdjustDecScale`: a number of one scale as a number of another scale and type. Values
are integers; the types that the conversions of the language give them are explicit. -/

namespace Fon9.Num

open Bitv

variable (t : IntType)

/-- `ToImax_t`. -/
def imax : IntType := if t.isSigned then .int64 else .uint64

/-- The integral promotion. -/
def promote : IntType := if t.size < 4 then .int32 else t

/-- The common type of two promoted operands. -/
def balance (s t : IntType) : IntType :=
  if s.isSigned = t.isSigned then if t.size ≤ s.size then s else t
  else if s.isSigned then if s.size ≤ t.size then t else s
  else if t.size ≤ s.size then s else t

/-- The type in which two operands meet: the usual arithmetic conversions. -/
def common (s t : IntType) : IntType := balance (promote s) (promote t)

/-- What is raised; a signed overflow has no defined behaviour. -/
inductive AdjustError
  | underflow
  | overflow
  | range
  | undefined
  deriving DecidableEq, Repr

/-- `AdjustDecScaleExLimit` and `AdjustDecScaleExThrow`. -/
inductive AdjustDecScaleEx
  | limit
  | throw
  deriving DecidableEq

/-- A result of arithmetic in a type. -/
def arith (v : ℤ) : Except AdjustError ℤ :=
  if t.isSigned then if t.min ≤ v ∧ v ≤ t.max then .ok v else .error .undefined else .ok (t.wrap v)

def getDecDivisor (scale : ℕ) : Except AdjustError ℤ :=
  if scale ≤ decScaleMax then .ok (10 ^ scale) else .error .range

/-- `RoundByDivisor` of an `intmax_t` or a `uintmax_t`; the smallest `intmax_t` has no negative. -/
def roundByDivisor (maxType : IntType) (num : ℤ) (divisor : ℕ) : Except AdjustError ℤ :=
  if maxType.isSigned ∧ num = maxType.min then .error .undefined else .ok (Bitv.roundByDivisor num divisor)

namespace AdjustDecScaleEx

def onUnderflow (R : IntType) : AdjustDecScaleEx → Except AdjustError ℤ
  | limit => .ok R.min
  | throw => .error .underflow

def onOverflow (R : IntType) : AdjustDecScaleEx → Except AdjustError ℤ
  | limit => .ok R.max
  | throw => .error .overflow

/-- `OnAfterRound` of a value of type `S`. -/
def onAfterRound (ex : AdjustDecScaleEx) (R S : IntType) (src : ℤ) : Except AdjustError ℤ :=
  let t := common S R
  if t.wrap src < t.wrap R.min then ex.onUnderflow R
  else if t.wrap R.max < t.wrap src then ex.onOverflow R
  else .ok (R.wrap src)

/-- `OnMultipleDivisor` with a multiplier of type `M`. -/
def onMultipleDivisor (ex : AdjustDecScaleEx) (R S M : IntType) (src m : ℤ) : Except AdjustError ℤ := do
  let t := common (imax S) M
  let product ← arith t (t.wrap src * t.wrap m)
  let res := R.wrap product
  let d := common R (imax S)
  if src ≠ S.wrap (Int.tdiv (d.wrap res) (d.wrap ((imax S).wrap m))) then
    if src < 0 then ex.onUnderflow R else ex.onOverflow R
  else .ok res

end AdjustDecScaleEx

variable (ex : AdjustDecScaleEx)

/-- `AdjustDecScale` with the scales as arguments. -/
def adjustDecScale (S R : IntType) (src : ℤ) (srcScale reScale : ℕ) : Except AdjustError ℤ :=
  if reScale = srcScale then ex.onAfterRound R S src
  else if reScale < srcScale then do
    let divisor ← getDecDivisor (srcScale - reScale)
    let num ← roundByDivisor (imax S) src divisor.toNat
    ex.onAfterRound R (imax S) num
  else do
    let m ← getDecDivisor (reScale - srcScale)
    ex.onMultipleDivisor R S .uint64 src m

/-- `AdjustDecScale` with the scales as template arguments: the divisor is of type `S`. -/
def adjustDecScaleN (S R : IntType) (src : ℤ) (srcScale reScale : ℕ) : Except AdjustError ℤ :=
  if reScale < srcScale then do
    let num ← roundByDivisor (imax S) src (10 ^ (srcScale - reScale))
    ex.onAfterRound R (imax S) num
  else ex.onMultipleDivisor R S S src (10 ^ (reScale - srcScale))

/-- `Decimal::Assign`: the result type is the widest one of the source, and the value of the
decimal is cast from it. -/
def assign (S OrigType : IntType) (src : ℤ) (srcScale scale : ℕ) : Except AdjustError ℤ :=
  OrigType.wrap <$> adjustDecScale ex S (imax S) src srcScale scale

/-! ### What it is for -/

/-- Half away from zero. -/
def roundAway (q : ℚ) : ℤ := if 0 ≤ q then ⌊q + 1 / 2⌋ else -⌊-q + 1 / 2⌋

/-- The exact value in the other scale, rounded where digits are dropped. -/
def scaled (src : ℤ) (srcScale reScale : ℕ) : ℤ := roundAway ((src : ℚ) * 10 ^ reScale / 10 ^ srcScale)

/-- The value is one of the type. -/
def Fits (v : ℤ) : Prop := t.min ≤ v ∧ v ≤ t.max

instance (t : IntType) (v : ℤ) : Decidable (Fits t v) := inferInstanceAs (Decidable (_ ∧ _))

def clamp (v : ℤ) : ℤ := if v < t.min then t.min else if t.max < v then t.max else v

/-- The value clamped to the type; or the value if it is one of the type, with something
raised otherwise. -/
def AdjustDecScaleEx.Meets (R : IntType) (v : ℤ) (r : Except AdjustError ℤ) : AdjustDecScaleEx → Prop
  | limit => r = .ok (clamp R v)
  | throw => if Fits R v then r = .ok v else ∃ e, r = .error e ∧ e ≠ .undefined

end Fon9.Num
