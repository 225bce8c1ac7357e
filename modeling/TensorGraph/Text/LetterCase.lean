import TensorGraph.Text.CaseTable

/-!
# Capital and small letters

The small letters of a capital and the capitals of a small letter. A letter has several of
them where no single one is its other case.

## Main results

* `small_of_ascii`, `capital_of_ascii` -- on ASCII the two are those of core.
-/

namespace TensorGraph.Text

/-- The letter that the first range to hold a letter leads to. -/
def throughRanges? (ranges : List CaseRange) (c : Char) : Option Char :=
  (ranges.find? fun r => r.holds c.toNat).map fun r => Char.ofNat (r.other c.toNat)

/-- The small letters of a capital; any other character is itself. -/
def small (c : Char) : List Char :=
  if c = 'İ' then ['i', '\u0307']
  else [((throughRanges? casePairs c).or (throughRanges? smallRanges c)).getD c]

/-- The small letters as ranges that lead to their capitals. -/
def inversePairs : List CaseRange := casePairs.map CaseRange.inverse

/-- The capitals of a small letter; any other character is itself. -/
def capital (c : Char) : List Char :=
  match longCapitals.lookup c.toNat with
  | some capitals => capitals.map Char.ofNat
  | none => [((throughRanges? inversePairs c).or (throughRanges? capitalRanges c)).getD c]

/-! ## ASCII -/

private theorem throughRanges?_of_above {ranges : List CaseRange} {c : Char}
    (habove : ∀ r ∈ ranges, 128 ≤ r.first) (hc : c.toNat < 128) :
    throughRanges? ranges c = none := by
  refine Option.map_eq_none_iff.2 (List.find?_eq_none.2 fun r hr => ?_)
  have := habove r hr
  simp only [CaseRange.holds, Bool.and_eq_true, decide_eq_true_eq]
  omega

private theorem throughRanges?_cons_of_above {r : CaseRange} {ranges : List CaseRange} {c : Char}
    (habove : ∀ r ∈ ranges, 128 ≤ r.first) (hc : c.toNat < 128) :
    throughRanges? (r :: ranges) c = throughRanges? [r] c := by
  have hrest := throughRanges?_of_above habove hc
  simp only [throughRanges?, Option.map_eq_none_iff] at hrest ⊢
  simp only [List.find?_cons, hrest, List.find?_nil]

private theorem throughRanges?_casePairs {c : Char} (hc : c.toNat < 128) :
    throughRanges? casePairs c = throughRanges? [⟨0x41, 0x5A, 1, 32⟩] c := by
  have habove : ∀ r ∈ casePairs.tail, 128 ≤ r.first := by decide +kernel
  exact throughRanges?_cons_of_above habove hc

private theorem throughRanges?_inversePairs {c : Char} (hc : c.toNat < 128) :
    throughRanges? inversePairs c = throughRanges? [⟨0x61, 0x7A, 1, -32⟩] c := by
  have habove : ∀ r ∈ inversePairs.tail, 128 ≤ r.first := by decide +kernel
  exact throughRanges?_cons_of_above habove hc

theorem small_of_ascii {c : Char} (hc : c.toNat < 128) : small c = [c.toLower] := by
  have hdot : c ≠ 'İ' := by
    rintro rfl
    exact absurd hc (by decide)
  have hsmall : throughRanges? smallRanges c = none :=
    throughRanges?_of_above (by decide +kernel) hc
  have hcore : ∀ n < 128, let c := Char.ofNat n
      (throughRanges? [⟨0x41, 0x5A, 1, 32⟩] c).getD c = c.toLower := by decide +kernel
  have := hcore c.toNat hc
  rw [Char.ofNat_toNat] at this
  simp [small, hdot, hsmall, throughRanges?_casePairs hc, this]

theorem capital_of_ascii {c : Char} (hc : c.toNat < 128) : capital c = [c.toUpper] := by
  have hlong : longCapitals.lookup c.toNat = none := by
    have habove : ∀ p ∈ longCapitals, 128 ≤ p.1 := by decide +kernel
    refine List.lookup_eq_none_iff.2 fun p hp => ?_
    have := habove p hp
    simp only [bne_iff_ne, ne_eq]
    omega
  have hcapital : throughRanges? capitalRanges c = none :=
    throughRanges?_of_above (by decide +kernel) hc
  have hcore : ∀ n < 128, let c := Char.ofNat n
      (throughRanges? [⟨0x61, 0x7A, 1, -32⟩] c).getD c = c.toUpper := by decide +kernel
  have := hcore c.toNat hc
  rw [Char.ofNat_toNat] at this
  simp [capital, hlong, hcapital, throughRanges?_inversePairs hc, this]

end TensorGraph.Text
