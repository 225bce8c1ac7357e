import TensorGraph.Text.Halves

/-!
# Units of sixteen bits

Some rules count and cut texts in units of 16 bits. A character of the basic plane is one
unit, and any other character is a pair of two halves. A cut may go through a pair; what it
leaves is spelled as lone halves.

## Main results

* `units_of_basic` -- a text of characters below `0x10000` has its code points as units.
* `spelledUnits_of_basic` -- units that are no halves are spelled one by one.
-/

namespace TensorGraph.Text

/-- The 16-bit units of one character. -/
def unitsOfChar (c : Char) : List Nat :=
  let n := c.toNat
  if n < 0x10000 then [n]
  else [0xD800 + (n - 0x10000) / 0x400, 0xDC00 + (n - 0x10000) % 0x400]

/-- The 16-bit units of a piece of a text. -/
def Piece.units : Piece → List Nat
  | .char c => unitsOfChar c
  | .half unit => [unit]

/-- The 16-bit units of a spelled text. -/
def unitsOfChars (cs : List Char) : List Nat := (pieces cs).flatMap Piece.units

/-- The 16-bit units of a text. -/
def units (s : String) : List Nat := unitsOfChars s.toList

private theorem not_isReserved_of_basic {c : Char} (h : c.toNat < 0x10000) :
    isReserved c = false := by
  simp only [isReserved, Bool.and_eq_false_iff, decide_eq_false_iff_not]
  omega

theorem units_of_basic {s : String} (h : ∀ c ∈ s.toList, c.toNat < 0x10000) :
    units s = s.toList.map Char.toNat := by
  unfold units unitsOfChars
  generalize s.toList = cs at h
  induction cs with
  | nil => rfl
  | cons c cs ih =>
      have hc : c.toNat < 0x10000 := h c (by simp)
      rw [pieces_cons_of_not_reserved (not_isReserved_of_basic hc)]
      simp [List.flatMap_cons, Piece.units, unitsOfChar, hc, ih fun d hd => h d (by simp [hd])]

/-! ## Texts from units -/

/-- Whether a unit is the first half of a pair. -/
def isFirstHalf (unit : Nat) : Bool := 0xD800 ≤ unit && unit < 0xDC00

/-- Whether a unit is the second half of a pair. -/
def isSecondHalf (unit : Nat) : Bool := 0xDC00 ≤ unit && unit < 0xE000

/-- The character of two halves. -/
def joinedHalves (first second : Nat) : Char :=
  Char.ofNat (0x10000 + (first - 0xD800) * 0x400 + (second - 0xDC00))

/-- How units are spelled: two halves that belong together as their character. -/
def spelledUnits : List Nat → List Char
  | [] => []
  | [u] => spelledUnit u
  | u :: v :: rest =>
      if isFirstHalf u && isSecondHalf v then spelledChar (joinedHalves u v) ++ spelledUnits rest
      else spelledUnit u ++ spelledUnits (v :: rest)

/-- The text of units. -/
def ofUnits (us : List Nat) : String := String.ofList (spelledUnits us)

theorem spelledUnits_of_basic {us : List Nat} (h : ∀ u ∈ us, isHalf u = false) :
    spelledUnits us = us.flatMap spelledUnit := by
  induction us with
  | nil => rfl
  | cons u us ih =>
      have hu : isFirstHalf u = false := by
        have := h u (by simp)
        simp only [isHalf, isFirstHalf, Bool.and_eq_false_iff, decide_eq_false_iff_not] at this ⊢
        omega
      cases us with
      | nil => simp [spelledUnits]
      | cons v rest =>
          simp [spelledUnits, hu, ih fun w hw => h w (List.mem_cons_of_mem _ hw)]

end TensorGraph.Text
