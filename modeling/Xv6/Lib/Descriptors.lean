import Mathlib

/-! Descriptor tables: the lowest free number is given out.

    A table lists what its numbers stand for. Numbers are integers, as in C: a failed call returns -1, and a call
    on a number that stands for nothing does nothing. -/

namespace Descriptors

variable {D : Type}

/-- What the number `fd` stands for. -/
def get (t : List (Option D)) (fd : Int) : Option D :=
  if fd < 0 then none else (t[fd.toNat]?).join

/-- The lowest free number, and the table in which it stands for `d`. -/
def alloc (t : List (Option D)) (d : D) : Option (Int × List (Option D)) :=
  (t.findIdx? Option.isNone).map fun i => (Int.ofNat i, t.set i (some d))

def close (t : List (Option D)) (fd : Int) : List (Option D) :=
  match get t fd with
  | none => t
  | some _ => t.set fd.toNat none

/-- The new number, or -1. -/
def dup (t : List (Option D)) (fd : Int) : Int × List (Option D) :=
  match get t fd with
  | none => (-1, t)
  | some d => (alloc t d).getD (-1, t)

/-- How many numbers are in use. -/
def count (t : List (Option D)) : Nat := (t.filter Option.isSome).length

end Descriptors
