import Mathlib.Algebra.BigOperators.Group.List.Basic
import Mathlib.Algebra.GroupWithZero.Nat
import Mathlib.Data.List.Nodup
import TensorGraph.Graph.LiteralOps
import TensorGraph.Tensor.Element

/-!
# Counting and rearranging entries

The number of entries of a literal is computed in doubles, one size after the other. A result in the
exact range is the true number, for what has left that range comes back only through a size of zero.
So a literal that is transposed at all has as many entries as its sizes say, in whatever order they
are multiplied, and each of them is an entry of the literal before.

## Main results

* `Shape.measured_of_small` -- a small result of the computation in doubles is exact.
* `Permutation.arrange_perm` -- rearranging by a permutation permutes.
* `Literal.mem_data_permute` -- transposing makes no new entries.
* `Literal.turnable_of_small` -- a literal that is not too large can be brought into every order of its
  axes.
-/

namespace TensorGraph

/-! ## Numbers of entries -/

/-- A whole number in the exact range is rounded from itself only. -/
theorem Number.ofInt_eq_int {n m : Nat} (h : Number.ofInt n = .int m) (hm : m < exactRange) :
    n = m := by
  by_cases hn : n < exactRange
  · rw [Number.ofInt_of_small (by simpa using hn), Number.int.injEq] at h
    exact Int.ofNat.inj h
  · rw [← Shape.ofRounded_roundToDouble] at h
    cases hround : roundToDouble n with
    | none => rw [hround] at h; cases h
    | some rounded =>
        rw [hround] at h
        obtain rfl : rounded = m := Int.ofNat.inj (Number.int.inj h)
        have hle := exactRange_le_of_roundToDouble (Nat.not_lt.1 hn) hround
        exact absurd hm (Nat.not_lt.2 hle)

namespace Shape

theorem measured_singleton (n : Nat) : measured [n] = .ofInt n := by
  have hstep := measureStep_int 1 n
  rw [Nat.one_mul] at hstep
  rw [measured, List.foldl_cons, List.foldl_nil]
  exact hstep

theorem size_eq_prod (dims : List Nat) : size dims = dims.prod := by
  induction dims with
  | nil => rfl
  | cons d ds ih => rw [size_cons, List.prod_cons, ih]

theorem size_perm {dims others : List Nat} (h : dims.Perm others) : size dims = size others := by
  rw [size_eq_prod, size_eq_prod, h.prod_eq]

/-- What is infinite or no number is no natural number after further sizes. -/
private theorem foldl_measureStep_real {x : Float}
    (hx : Number.real x = .infinity ∨ Number.real x = .nan) (dims : List Nat) :
    (dims.foldl measureStep (.real x)).toNat? = none := by
  induction dims generalizing x with
  | nil => rcases hx with hx | hx <;> rw [List.foldl_nil, hx] <;> decide
  | cons d ds ih =>
      rw [List.foldl_cons]
      have hstep : measureStep (.real x) d = .nan ∨ measureStep (.real x) d = .real x := by
        unfold measureStep
        by_cases hd : d = 0 <;> simp [hd]
      rcases hstep with hstep | hstep <;> rw [hstep]
      · exact ih (.inr rfl)
      · exact ih hx

private theorem foldl_measureStep_of_small {dims : List Nat} {count n : Nat}
    (h : (dims.foldl measureStep (.int count)).toNat? = some n) (hn : n < exactRange) :
    count * size dims = n ∧ dims.foldl measureStep (.int count) = .int n := by
  induction dims generalizing count with
  | nil =>
      obtain rfl : count = n := Option.some.inj h
      rw [size_nil, Nat.mul_one]
      exact ⟨rfl, rfl⟩
  | cons d ds ih =>
      rw [List.foldl_cons, measureStep_int, ← ofRounded_roundToDouble] at h ⊢
      rw [size_cons, ← Nat.mul_assoc]
      cases hround : roundToDouble (count * d) with
      | none =>
          rw [hround] at h
          exact absurd (h.symm.trans (foldl_measureStep_real (.inl rfl) ds)) (Option.some_ne_none n)
      | some m =>
          rw [hround] at h
          obtain ⟨hsize, hfold⟩ : m * size ds = n ∧ ds.foldl measureStep (.int m) = .int n := ih h
          refine ⟨?_, hfold⟩
          by_cases hsmall : count * d < exactRange
          · rw [roundToDouble_of_lt hsmall] at hround
            exact Option.some.inj hround ▸ hsize
          · -- too large a count is made small by a size of zero only
            have hm := exactRange_le_of_roundToDouble (Nat.not_lt.1 hsmall) hround
            have hzero : size ds = 0 := by
              by_contra hne
              have hle := Nat.le_mul_of_pos_right m (Nat.pos_of_ne_zero hne)
              exact absurd hn (Nat.not_lt.2 (hsize ▸ Nat.le_trans hm hle))
            rw [hzero, Nat.mul_zero] at hsize ⊢
            exact hsize

/-- Where the number of entries, computed in doubles, is in the exact range, it is the true one. -/
theorem measured_of_small {dims : List Nat} {n : Nat} (h : (measured dims).toNat? = some n)
    (hn : n < exactRange) : size dims = n ∧ measured dims = .int n := by
  have hone : 1 * size dims = n ∧ measured dims = .int n := foldl_measureStep_of_small h hn
  rwa [Nat.one_mul] at hone

theorem size_take_le {dims : List Nat} (hpos : size dims ≠ 0) (k : Nat) :
    size (dims.take k) ≤ size dims := by
  have hsplit : size dims = size (dims.take k) * size (dims.drop k) := by
    rw [size_eq_prod, size_eq_prod, size_eq_prod, ← List.prod_append, List.take_append_drop]
  rw [hsplit] at hpos ⊢
  exact Nat.le_mul_of_pos_right _ (Nat.pos_of_ne_zero fun hzero => hpos (by rw [hzero, Nat.mul_zero]))

/-- Axes of size one in front do not count. -/
theorem measured_replicate_one (count : Nat) (dims : List Nat) :
    measured (List.replicate count 1 ++ dims) = measured dims := by
  have hone : measureStep (.int 1) 1 = .int 1 := by
    rw [← Int.natCast_one, measureStep_int, Number.ofInt_of_small (by decide)]
  induction count with
  | zero => rfl
  | succ count ih =>
      rw [List.replicate_succ, List.cons_append, measured, List.foldl_cons, hone]
      exact ih

/-- If no axis is empty, a small number of entries is computed exactly. -/
theorem measured_of_size {dims : List Nat} (hpos : size dims ≠ 0) (hsmall : size dims < exactRange) :
    measured dims = .int (size dims : Nat) :=
  measured_of_exact fun k _ => Nat.lt_of_le_of_lt (size_take_le hpos k) hsmall

/-- What some sizes multiply to is at most what all sizes but zero do. -/
theorem size_take_le_filter (dims : List Nat) (k : Nat) :
    size (dims.take k) ≤ size (dims.filter (· ≠ 0)) := by
  have hpos (ds : List Nat) : 0 < size (ds.filter (· ≠ 0)) := by
    induction ds with
    | nil => decide
    | cons d ds ih =>
        by_cases hd : d = 0
        · simpa [hd] using ih
        · rw [List.filter_cons_of_pos (by simpa using hd), size_cons]
          exact Nat.mul_pos (Nat.pos_of_ne_zero hd) ih
  induction dims generalizing k with
  | nil => simp
  | cons d ds ih =>
      cases k with
      | zero => exact hpos (d :: ds)
      | succ k =>
          rw [List.take_succ_cons, size_cons]
          by_cases hd : d = 0
          · simp [hd]
          · rw [List.filter_cons_of_pos (by simpa using hd), size_cons]
            exact Nat.mul_le_mul_left d (ih k)

/-- Sizes can be counted when they do not multiply to more than a buffer can hold, those that are zero
left aside. -/
theorem lengthOf_measured {dims : List Nat}
    (hsmall : size (dims.filter (· ≠ 0)) < Permutation.lengthLimit) :
    lengthOf (measured dims) = .ok (size dims) := by
  have hlt (k : Nat) : size (dims.take k) < Permutation.lengthLimit :=
    Nat.lt_of_le_of_lt (size_take_le_filter dims k) hsmall
  have hall : size dims < Permutation.lengthLimit := by
    have hlast := hlt dims.length
    rwa [List.take_length] at hlast
  rw [measured_of_exact fun k _ => Nat.lt_of_lt_of_le (hlt k) (by decide)]
  exact if_pos hall

end Shape

/-! ## Rearranging -/

namespace Permutation

theorem IsPermutation.perm_range {p : List Nat} (hp : IsPermutation p) :
    p.Perm (List.range p.length) := by
  refine (List.subperm_of_subset hp.1 fun axis haxis => ?_).perm_of_length_le (by simp)
  exact List.mem_range.2 (hp.2 axis haxis)

/-- Rearranging by a permutation of the right rank permutes. -/
theorem arrange_perm {α : Type} [Inhabited α] {xs : List α} {p : List Nat} (hp : IsPermutation p)
    (hlength : p.length = xs.length) : (arrange xs p).Perm xs := by
  have hperm := hp.perm_range.map fun axis => xs.getD axis default
  rw [hlength] at hperm
  exact hperm.trans (.of_eq (arrange_identity xs))

theorem invert_isPermutation {p : List Nat} (hp : IsPermutation p) : IsPermutation (invert p) := by
  have hmem : ∀ axis ∈ List.range p.length, axis ∈ p := fun axis haxis =>
    hp.perm_range.mem_iff.2 haxis
  refine ⟨List.Nodup.map_on (fun a ha b _ heq => ?_) List.nodup_range, fun place hplace => ?_⟩
  · exact (List.idxOf_inj (hmem a ha)).1 heq
  · obtain ⟨axis, haxis, rfl⟩ := List.mem_map.1 hplace
    rw [length_invert]
    exact List.idxOf_lt_length_of_mem (hmem axis haxis)

end Permutation

namespace Shape

/-- The multi-indices of a shape lie within it. -/
theorem within_of_mem_indices {dims index : List Nat} (h : index ∈ indices dims) :
    Within index dims := by
  induction dims generalizing index with
  | nil =>
      obtain rfl : index = [] := by simpa [indices] using h
      trivial
  | cons d ds ih =>
      rw [indices_cons] at h
      obtain ⟨i, hi, hindex⟩ := List.mem_flatMap.1 h
      obtain ⟨rest, hrest, rfl⟩ := List.mem_map.1 hindex
      exact ⟨List.mem_range.1 hi, ih hrest⟩

private theorem pos_of_within {index dims : List Nat} (h : Within index dims) : ∀ d ∈ dims, 0 < d := by
  induction dims generalizing index with
  | nil => simp
  | cons d ds ih =>
      cases index with
      | nil => exact h.elim
      | cons i index =>
          exact List.forall_mem_cons.2 ⟨Nat.zero_lt_of_lt h.1, ih h.2⟩

private theorem within_pred {dims : List Nat} (h : ∀ d ∈ dims, 0 < d) :
    Within (dims.map Nat.pred) dims := by
  induction dims with
  | nil => trivial
  | cons d ds ih =>
      rw [List.forall_mem_cons] at h
      exact ⟨Nat.pred_lt_of_lt h.1, ih h.2⟩

/-- The farthest multi-index is the one with the largest coordinates. -/
private theorem distance_le {index dims : List Nat} (h : Within index dims) (strides : List Nat) :
    distance index strides ≤ distance (dims.map Nat.pred) strides := by
  induction dims generalizing index strides with
  | nil =>
      cases index with
      | nil => exact Nat.le_refl _
      | cons => exact h.elim
  | cons d ds ih =>
      cases index with
      | nil => exact h.elim
      | cons i index =>
          cases strides with
          | nil => exact Nat.le_refl _
          | cons stride strides =>
              exact Nat.add_le_add (Nat.mul_le_mul_right _ (Nat.le_pred_of_lt h.1)) (ih h.2 strides)

private theorem distance_arrange (index strides p : List Nat) :
    distance (Permutation.arrange index p) (Permutation.arrange strides p) =
      (p.map fun axis => index.getD axis default * strides.getD axis default).sum := by
  induction p with
  | nil => rfl
  | cons axis p ih => exact congrArg (_ + ·) ih

/-- A multi-index within rearranged sizes leads to an entry if the strides are rearranged likewise. -/
theorem distance_arrange_lt {dims index p : List Nat} (hp : Permutation.IsPermutation p)
    (hlength : p.length = dims.length) (h : Within index (Permutation.arrange dims p)) :
    distance index (Permutation.arrange (strides dims) p) < size dims := by
  have hpositive : ∀ d ∈ dims, 0 < d := fun d hd =>
    pos_of_within h d ((Permutation.arrange_perm hp hlength).mem_iff.2 hd)
  have hpred : (Permutation.arrange dims p).map Nat.pred = Permutation.arrange (dims.map Nat.pred) p := by
    unfold Permutation.arrange
    rw [List.map_map]
    refine List.map_congr_left fun axis _ => ?_
    simp only [Function.comp_apply, List.getD_eq_getElem?_getD, List.getElem?_map]
    cases dims[axis]? <;> rfl
  have hself : ∀ xs : List Nat, xs.length = dims.length →
      Permutation.arrange xs (List.range dims.length) = xs := fun xs hxs =>
    hxs ▸ Permutation.arrange_identity xs
  calc distance index (Permutation.arrange (strides dims) p)
      ≤ distance ((Permutation.arrange dims p).map Nat.pred)
          (Permutation.arrange (strides dims) p) := distance_le h _
    _ = distance (dims.map Nat.pred) (strides dims) := by
        rw [hpred, distance_arrange, (hp.perm_range.map _).sum_eq, hlength, ← distance_arrange,
          hself _ (by simp), hself _ (by simp)]
    _ < size dims := distance_lt_size (within_pred hpositive)

end Shape

namespace Literal

variable {t : Literal} {p : List Nat}

theorem length_sizes (t : Literal) : t.sizes.length = t.dims.length := List.length_map _

/-- A literal is brought to a rank by axes of size one in front. -/
theorem padToRank_ok {u : Literal} {rank : Nat} (h : t.padToRank (.ofNat rank) = .ok u) :
    ∃ count, u = { t with dims := List.replicate count (.int 1) ++ t.dims } ∧
      u.dims.length = rank := by
  unfold padToRank at h
  split at h
  · rename_i hsame
    cases h
    have hlength : (rank : Int) = t.dims.length := eq_of_beq hsame
    exact ⟨0, rfl, by omega⟩
  · unfold Shape.padToRank at h
    split at h
    · cases h
    · split at h
      · rename_i padded hpadded
        cases h
        obtain ⟨n, hn, hpadded⟩ := Option.bind_eq_some_iff.1 hpadded
        rw [Number.toNat?_ofNat] at hn
        obtain rfl : rank = n := Option.some.inj (Option.filter_eq_some_iff.1 hn).1
        unfold Shape.padToRank? at hpadded
        split at hpadded
        · cases hpadded
        · rename_i hle
          cases hpadded
          refine ⟨rank - t.dims.length, rfl, ?_⟩
          rw [List.length_append, List.length_replicate]
          omega
      · cases h

theorem sizes_padded (t : Literal) (count : Nat) :
    ({ t with dims := List.replicate count (.int 1) ++ t.dims } : Literal).sizes =
      List.replicate count 1 ++ t.sizes := by
  unfold sizes
  rw [List.map_append, List.map_replicate]
  rfl

/-- A literal that is transposed by a permutation has no new entries, if none was missing before. -/
theorem mem_data_permute (hp : Permutation.IsPermutation p) (hlength : p.length = t.dims.length)
    (hdata : Shape.size t.sizes ≤ t.data.length) {x : Number} (hx : x ∈ (t.permute p).data) :
    x ∈ t.data := by
  obtain ⟨index, hindex, rfl⟩ := List.mem_map.1 hx
  have hlt : Shape.distance index (Permutation.arrange (Shape.strides t.sizes) p) < t.data.length :=
    Nat.lt_of_lt_of_le
      (Shape.distance_arrange_lt hp (hlength.trans t.length_sizes.symm)
        (Shape.within_of_mem_indices hindex)) hdata
  rw [Array.getD_eq_getD_getElem?, List.getElem?_toArray, List.getElem?_eq_getElem hlt]
  exact List.getElem_mem hlt

end Literal

/-! ## Literals that can be turned -/

/-- Whether a literal can be brought to a rank, and then into every order of its axes: its sizes can
be multiplied in any order. -/
def Literal.Turnable (rank : Nat) (value : Literal) : Prop :=
  value.dims.length ≤ rank ∧ ∀ p, Permutation.IsPermutation p → p.length = rank →
    ∃ padded turned, value.padToRank (.ofNat rank) = .ok padded ∧ padded.transpose p = .ok turned

/-- A literal can be turned when its sizes, those that are zero left aside, do not multiply to more
than a buffer can hold. -/
theorem Literal.turnable_of_small {rank : Nat} {value : Literal} (hrank : value.dims.length ≤ rank)
    (hlimit : rank < Permutation.lengthLimit)
    (hsmall : Shape.size (value.sizes.filter (· ≠ 0)) < Permutation.lengthLimit) :
    value.Turnable rank := by
  refine ⟨hrank, fun p hp hlength => ?_⟩
  obtain ⟨padded, hpadded⟩ : ∃ padded, value.padToRank (.ofNat rank) = .ok padded := by
    have hnot : (Number.ofNat rank).below (.ofNat value.dims.length) = false := by
      simpa [Number.below, Number.ofNat] using hrank
    unfold padToRank
    split
    · exact ⟨_, rfl⟩
    · simp only [Shape.padToRank, hnot, Bool.false_eq_true, if_false, Number.toNat?_ofNat,
        Option.filter_some, decide_eq_true hlimit, if_true, Option.bind_some, Shape.padToRank?,
        if_neg (Nat.not_lt.2 hrank)]
      exact ⟨_, rfl⟩
  obtain ⟨count, rfl, hdims⟩ := padToRank_ok hpadded
  have hsizes := sizes_padded value count
  have hperm : (Permutation.arrange (List.replicate count 1 ++ value.sizes) p).Perm
      (List.replicate count 1 ++ value.sizes) := by
    refine Permutation.arrange_perm hp ?_
    rw [hlength, ← hdims, ← hsizes, length_sizes]
  have hcount : Shape.size ((Permutation.arrange (List.replicate count 1 ++ value.sizes) p).filter
      (· ≠ 0)) < Permutation.lengthLimit := by
    rw [Shape.size_perm (hperm.filter _), List.filter_append, Shape.size_eq_prod, List.prod_append,
      ← Shape.size_eq_prod, ← Shape.size_eq_prod]
    simpa [Shape.size_eq_prod] using hsmall
  have hturned : ({ value with dims := List.replicate count (.int 1) ++ value.dims } : Literal).transpose p =
      .ok (({ value with dims := List.replicate count (.int 1) ++ value.dims } : Literal).permute p) := by
    rw [transpose, hsizes, Shape.lengthOf_measured hcount]
    rfl
  exact ⟨_, _, hpadded, hturned⟩

end TensorGraph
