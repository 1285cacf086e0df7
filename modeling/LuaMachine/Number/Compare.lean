import LuaMachine.Number.Basic

/-!
# Comparison of numbers

Numbers of different subtypes are compared by their mathematical value. An integer of magnitude up
to `2 ^ 53` is compared as a float; beyond that the float is rounded to an integer in the direction
that keeps the answer, and a float outside the integer range decides by its sign. Every comparison
with NaN is false.
-/
namespace LuaMachine

/-- Whether every integer of this magnitude has an exact float. -/
def fitsFloat (n : Int64) : Bool :=
  -9007199254740992 ≤ n && n ≤ 9007199254740992

/-- `n < x`. -/
def intLtFloat (n : Int64) (x : Float) : Bool :=
  if fitsFloat n then Binary64.ofInt64 n < x
  else match floatToInt? .ceil x with
    | some c => n < c
    | none => x > 0

/-- `n ≤ x`. -/
def intLeFloat (n : Int64) (x : Float) : Bool :=
  if fitsFloat n then Binary64.ofInt64 n ≤ x
  else match floatToInt? .floor x with
    | some f => n ≤ f
    | none => x > 0

/-- `x < n`. -/
def floatLtInt (x : Float) (n : Int64) : Bool :=
  if fitsFloat n then x < Binary64.ofInt64 n
  else match floatToInt? .floor x with
    | some f => f < n
    | none => x < 0

/-- `x ≤ n`. -/
def floatLeInt (x : Float) (n : Int64) : Bool :=
  if fitsFloat n then x ≤ Binary64.ofInt64 n
  else match floatToInt? .ceil x with
    | some c => c ≤ n
    | none => x < 0

namespace Number

/-- Equality of value. An integer equals a float only if the float holds exactly that integer. -/
def equal : Number → Number → Bool
  | .int m, .int n => m = n
  | .float x, .float y => x == y
  | .int n, .float x => floatToInt? .exact x = some n
  | .float x, .int n => floatToInt? .exact x = some n

def lessThan : Number → Number → Bool
  | .int m, .int n => m < n
  | .float x, .float y => x < y
  | .int n, .float x => intLtFloat n x
  | .float x, .int n => floatLtInt x n

def lessEqual : Number → Number → Bool
  | .int m, .int n => m ≤ n
  | .float x, .float y => x ≤ y
  | .int n, .float x => intLeFloat n x
  | .float x, .int n => floatLeInt x n

end Number

end LuaMachine
