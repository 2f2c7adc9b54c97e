/-
# Decimal numbers in text

A number is read from ASCII digits, with an optional sign where one is
allowed, and only when it lies within the bounds the reader is given. It is
written with at least a wanted number of places, zeros filling the left; the
sign of a negative number takes one of the places.

Key definitions: `Decimal.unsigned?`, `Decimal.signed?`, `Decimal.padded`, `Decimal.year`.
-/

namespace Recurrence.Decimal

/-- The value of one digit. -/
def digit (c : Char) : Nat :=
  c.toNat - 48

/-- The number that digits stand for, the most significant first. -/
def value (digits : List Char) : Nat :=
  digits.foldl (fun n c => 10 * n + digit c) 0

/-- The number a nonempty text of digits stands for. -/
def natural? (text : List Char) : Option Nat :=
  if text ≠ [] ∧ text.all Char.isDigit then some (value text) else none

/-- A number up to `most`, which may carry a plus sign. -/
def unsigned? (most : Nat) (text : List Char) : Option Nat :=
  let digits := match text with
    | '+' :: rest => rest
    | _ => text
  (natural? digits).filter (· ≤ most)

/-- A number from `-bound` up to but not including `bound`, which may carry a
sign. -/
def signed? (bound : Nat) (text : List Char) : Option Int :=
  let signed : Option Int := match text with
    | '-' :: rest => (natural? rest).map fun n => -(n : Int)
    | '+' :: rest => (natural? rest).map fun n => (n : Int)
    | _ => (natural? text).map fun n => (n : Int)
  signed.filter fun n => -(bound : Int) ≤ n ∧ n < bound

/-- The digits of a number, with zeros on the left up to `places` places. -/
def padded (places : Nat) (n : Nat) : List Char :=
  let digits := Nat.toDigits 10 n
  List.replicate (places - digits.length) '0' ++ digits

/-- A number with its sign, in at least four places. -/
def year (n : Int) : List Char :=
  if n < 0 then '-' :: padded 3 n.natAbs else padded 4 n.natAbs

/-- The digits of a number. -/
def natural (n : Nat) : String :=
  String.ofList (padded 0 n)

/-- The digits of a number, with a minus sign if it is negative. -/
def integer (n : Int) : String :=
  String.ofList (if n < 0 then '-' :: padded 0 n.natAbs else padded 0 n.natAbs)

end Recurrence.Decimal
