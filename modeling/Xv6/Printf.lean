import Xv6.Param
import Xv6.Ulib

/-! `printf` of `kernel/printf.c` and `vprintf` of `user/printf.c`.

    The kernel looks ahead from a `%`, the library goes through a state. Both go along one list of directives.

        kernel    % l d  in one round                 a % l d b  ──▶  [char a, int, char b]
        library   state 0 ── % ──▶ state % ── l d ──▶ state 0

    A store behind `buf` has no result, and neither has an argument of the wrong type. -/

namespace Xv6.Printf
open Ulib List

/-! ### The code -/

/-- An argument; no string is the null pointer. -/
inductive Arg where
  | int (v : Int32)
  | long (v : UInt64)
  | str (s : Option (List UInt8))

/-- What a round prints. -/
inductive Directive where
  | char (c : UInt8)
  | int (long : Bool) (base : Nat) (sign : Bool)
  | ptr
  | str
  | percent
  | unknown (c : UInt8)
  deriving DecidableEq

/-- What `va_arg` leaves. -/
def Directive.rest : Directive → List Arg → List Arg
  | .int .., ap | .ptr, ap | .str, ap => ap.tail
  | .char _, ap | .percent, ap | .unknown _, ap => ap

/-- The `do` loop of `printint`; `k` places are left in `buf`. -/
def digitsInto (digit : Nat → UInt8) (base : Nat) : Nat → Nat → Option (List UInt8)
  | 0, _ => none
  | k + 1, x =>
    if x / base = 0 then some [digit (x % base)]
    else (digitsInto digit base k (x / base)).map (digit (x % base) :: ·)

/-- `printint` from the loop on. -/
def emit (digit : Nat → UInt8) (x base : Nat) (neg : Bool) : Option (List UInt8) := do
  let buf ← digitsInto digit base 16 x
  let buf ← if neg then (if buf.length < 16 then some (buf ++ ['-'.toUInt8]) else none) else some buf
  some buf.reverse

def printptr (digit : Nat → UInt8) (x : UInt64) : List UInt8 :=
  ['0', 'x'].map Char.toUInt8 ++ (range 16).map fun i => digit (x.toNat * 16 ^ i % 2 ^ 64 / 2 ^ 60)

/-- One directive, with the `printint` for an `int` and for a `uint64`. -/
def put (digit : Nat → UInt8) (int : Int32 → Nat → Bool → Option (List UInt8))
    (long : UInt64 → Nat → Bool → Option (List UInt8)) : Directive → List Arg → Option (List UInt8)
  | .char c, _ => some [c]
  | .int false base sign, .int v :: _ => int v base sign
  | .int true base sign, .long v :: _ => long v base sign
  | .ptr, .long v :: _ => some (printptr digit v)
  | .str, .str s :: _ => some (s.getD (['(', 'n', 'u', 'l', 'l', ')'].map Char.toUInt8))
  | .percent, _ => some ['%'.toUInt8]
  | .unknown c, _ => some ['%'.toUInt8, c]
  | .int .., _ | .ptr, _ | .str, _ => none

/-- A word of `w` bits as a signed number. -/
def signed (w n : Nat) : Int := if n % 2 ^ w < 2 ^ (w - 1) then (n % 2 ^ w : Nat) else (n % 2 ^ w : Nat) - (2 ^ w : Nat)

namespace Kernel

/-- `digits` of the kernel. -/
def digit (d : Nat) : UInt8 := UInt8.ofNat (Nat.digitChar d).toNat

/-- `printint(long long xx, ..)`, with an `unsigned long long x`. -/
def printint (xx : Int) (base : Nat) (sign : Bool) : Option (List UInt8) :=
  let sign := sign && decide (xx < 0)
  emit digit ((if sign then -xx else xx) % 2 ^ 64).toNat base sign

def put : Directive → List Arg → Option (List UInt8) :=
  Printf.put digit (fun v => printint v.toInt) fun v => printint (signed 64 v.toNat)

end Kernel

namespace User

/-- `digits` of the user library. -/
def digit (d : Nat) : UInt8 := UInt8.ofNat (Nat.digitChar d).toUpper.toNat

/-- `printint(int fd, int xx, ..)`, with a `uint x`. -/
def printint (xx : Int) (base : Nat) (sgn : Bool) : Option (List UInt8) :=
  let neg := sgn && decide (xx < 0)
  emit digit ((if neg then -xx else xx) % 2 ^ 32).toNat base neg

def put : Directive → List Arg → Option (List UInt8) :=
  Printf.put digit (fun v => printint v.toInt) fun v => printint (signed 32 v.toNat)

end User

/-! ### Integers -/

/-- The letter of an integer conversion. -/
inductive Letter where
  | d | u | x
  deriving DecidableEq

def Letter.char : Letter → Char
  | .d => 'd'
  | .u => 'u'
  | .x => 'x'

def Letter.base : Letter → Nat
  | .x => 16
  | _ => 10

/-- `%d`, `%lu`, `%llx` and so on. -/
def text (ls : Fin 3) (t : Letter) : List UInt8 := ('%' :: (replicate ls 'l' ++ [t.char])).map Char.toUInt8

section Integers
variable {b x k : Nat} {z xx : Int} {sign : Bool} {ls : Fin 3} {t : Letter} {a : Arg}

end Integers

/-! ### Both -/

section Machines
variable {fmt : List UInt8} {ap : List Arg}

end Machines

end Xv6.Printf
