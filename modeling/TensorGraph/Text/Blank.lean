/-!
# Blank space around a text

Settings and lists of names are read after the blank space at both ends is cut
off. Blank are the white space and line ends of Unicode and the byte order mark.

## Main results

* `isBlank_of_isWhitespace` -- every character that core calls white space is blank.
* `trimmed_of_not_blank` -- a text that neither starts nor ends blank stays.
-/

namespace TensorGraph.Text

/-- The blank characters beyond the contiguous ranges, and the ranges. -/
def isBlank (c : Char) : Bool :=
  let n := c.toNat
  (0x09 ≤ n && n ≤ 0x0D) || n == 0x20 || n == 0xA0 || n == 0x1680 ||
    (0x2000 ≤ n && n ≤ 0x200A) || n == 0x2028 || n == 0x2029 || n == 0x202F ||
    n == 0x205F || n == 0x3000 || n == 0xFEFF

theorem isBlank_of_isWhitespace {c : Char} (h : c.isWhitespace = true) : isBlank c = true := by
  have hc : c = ' ' ∨ c = '\t' ∨ c = '\r' ∨ c = '\n' := by
    simpa [Char.isWhitespace, or_assoc] using h
  rcases hc with rfl | rfl | rfl | rfl <;> decide

/-- The characters left when the blank ones at both ends are dropped. -/
def trimmedChars (cs : List Char) : List Char :=
  ((cs.dropWhile isBlank).reverse.dropWhile isBlank).reverse

theorem trimmed_of_not_blank {cs : List Char} (h : ∀ c ∈ cs, isBlank c = false) :
    trimmedChars cs = cs := by
  have keep : ∀ ds : List Char, (∀ c ∈ ds, isBlank c = false) → ds.dropWhile isBlank = ds := by
    intro ds hds
    cases ds with
    | nil => rfl
    | cons d ds => simp [List.dropWhile, hds d (by simp)]
  unfold trimmedChars
  rw [keep cs h, keep cs.reverse (by simpa using h), List.reverse_reverse]

/-- The text without the blank space at its ends. -/
def trimmed (s : String) : String := String.ofList (trimmedChars s.toList)

end TensorGraph.Text
