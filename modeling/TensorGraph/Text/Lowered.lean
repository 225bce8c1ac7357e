import TensorGraph.Text.Cased

/-!
# Texts in small letters and in capitals

A letter is mapped by itself, except for the Greek sigma, whose small letter has another form
at the end of a word: behind a letter and not in front of one, where marks and points within
words are skipped.

## Main results

* `lowered_of_no_sigma` -- without a sigma a text is lowered letter by letter.
-/

namespace TensorGraph.Text

/-- Whether a text goes on with a letter. -/
def startsCased (cs : List Char) : Bool := (cs.dropWhile isIgnorable).head?.any isCased

/-- The characters in small letters, behind a letter or not. -/
def loweredFrom : Bool → List Char → List Char
  | _, [] => []
  | afterCased, c :: rest =>
      (if c = 'Σ' && afterCased && !startsCased rest then ['ς'] else small c) ++
        loweredFrom (if isIgnorable c then afterCased else isCased c) rest

/-- The characters in small letters. -/
def lowered (cs : List Char) : List Char := loweredFrom false cs

/-- The characters in capitals. -/
def raised (cs : List Char) : List Char := cs.flatMap capital

theorem lowered_of_no_sigma {cs : List Char} (h : 'Σ' ∉ cs) : lowered cs = cs.flatMap small := by
  have from_any : ∀ afterCased, loweredFrom afterCased cs = cs.flatMap small := by
    induction cs with
    | nil => intro _; rfl
    | cons c rest ih =>
        intro afterCased
        have hc : c ≠ 'Σ' := fun e => h (by simp [e])
        simp [loweredFrom, hc, ih fun hrest => h (List.mem_cons_of_mem c hrest)]
  exact from_any false

end TensorGraph.Text
