import Mathlib.Algebra.Ring.Int.Defs
import TensorGraph.Proofs.Permutations
import TensorGraph.Tensor.Element
import TensorGraph.Tensor.Loose

/-!
# Transposed views

A tensor is what it holds at the multi-indices within its shape, wherever these elements lie in the
buffer. Transposing moves the coordinates of a multi-index and the strides alike, so that the element
stays where it is. Hence transposing twice is transposing by the composition, for tensors with natural
sizes as for those whose sizes are any numbers, and permutations act on tensors as a group.

## Main results

* `Shape.indices_arrange` -- the multi-indices of a rearranged shape are those of the shape, rearranged.
* `Tensor.element?_permuteBy` -- a transposed view has the elements of the tensor at moved multi-indices.
* `Tensor.permute_eq` -- numbers that form a permutation of the rank are accepted.
* `Tensor.permute_action` -- permutations act on tensors and shapes as a group.
-/

namespace TensorGraph

open Permutation

/-! ## Multi-indices -/

namespace Shape

theorem within_iff {index dims : List Nat} :
    Within index dims ↔ List.Forall₂ (· < ·) index dims := by
  induction index generalizing dims with
  | nil => cases dims <;> simp [Within]
  | cons i index ih =>
      cases dims with
      | nil => simp [Within]
      | cons d ds => simp [Within, ih]

theorem within_arrange_iff {index dims p : List Nat} (hp : IsPermutation p)
    (hindex : p.length = index.length) (hdims : p.length = dims.length) :
    Within (arrange index p) (arrange dims p) ↔ Within index dims := by
  rw [within_iff, within_iff, forall₂_arrange_iff hp hindex hdims]

theorem size_arrange {dims p : List Nat} (hp : IsPermutation p) (hlength : p.length = dims.length) :
    size (arrange dims p) = size dims :=
  size_perm (arrange_perm hp hlength)

/-- The multi-indices in row-major order are taken from the linear indices in their order. -/
theorem indices_eq_map_coordinates (dims : List Nat) :
    indices dims = (List.range (size dims)).map (Tensor.coordinates (strides dims)) := by
  induction dims with
  | nil => rfl
  | cons d ds ih =>
      -- a block of linear indices for each outermost coordinate
      have hblocks : ∀ n, List.range (n * size ds) =
          (List.range n).flatMap fun i => (List.range (size ds)).map (i * size ds + ·) := by
        intro n
        induction n with
        | zero => simp
        | succ n ihn =>
            rw [Nat.succ_mul, List.range_add, ihn, List.range_succ, List.flatMap_append]
            simp
      rw [indices_cons, size_cons, hblocks, List.map_flatMap, ih]
      refine List.flatMap_congr fun i _ => ?_
      rw [List.map_map, List.map_map]
      refine List.map_congr_left fun j hj => ?_
      have hlt : j < size ds := List.mem_range.1 hj
      have hpos : 0 < size ds := Nat.zero_lt_of_lt hlt
      simp only [Function.comp_apply, strides_cons, sizeFromInside_eq, Tensor.coordinates]
      rw [Nat.mul_comm i, Nat.mul_add_div hpos, Nat.div_eq_of_lt hlt, Nat.mul_add_mod,
        Nat.mod_eq_of_lt hlt, Nat.add_zero]

theorem mem_indices_iff {index dims : List Nat} : index ∈ indices dims ↔ Within index dims := by
  refine ⟨within_of_mem_indices, fun h => ?_⟩
  rw [indices_eq_map_coordinates]
  exact List.mem_map.2 ⟨_, List.mem_range.2 (distance_lt_size h), coordinates_distance h⟩

theorem nodup_indices (dims : List Nat) : (indices dims).Nodup := by
  rw [indices_eq_map_coordinates]
  refine List.Nodup.map_on (fun i hi j hj heq => ?_) List.nodup_range
  rw [← Tensor.distance_coordinates_strides dims i (List.mem_range.1 hi), heq,
    Tensor.distance_coordinates_strides dims j (List.mem_range.1 hj)]

/-- A rearranged shape has the same multi-indices up to their order, rearranged likewise. -/
theorem indices_arrange {dims p : List Nat} (hp : IsPermutation p) (hlength : p.length = dims.length) :
    (indices (arrange dims p)).Perm ((indices dims).map (arrange · p)) := by
  have hlengths : ∀ index ∈ indices dims, p.length = index.length := fun index hindex => by
    rw [(mem_indices_iff.1 hindex).length_eq, hlength]
  refine (List.perm_ext_iff_of_nodup (nodup_indices _) ?_).2 fun index => ?_
  · exact List.Nodup.map_on (fun a ha b hb heq =>
      (arrange_inj hp (hlengths a ha) (hlengths b hb)).1 heq) (nodup_indices dims)
  · rw [mem_indices_iff, List.mem_map]
    constructor
    · intro hwithin
      have hindex : p.length = index.length := by simpa using hwithin.length_eq.symm
      have hback : arrange (arrange index (invert p)) p = index := arrange_arrange_invert hp hindex
      refine ⟨arrange index (invert p), mem_indices_iff.2 ?_, hback⟩
      rwa [← within_arrange_iff hp (by simp) hlength, hback]
    · rintro ⟨inner, hinner, rfl⟩
      exact (within_arrange_iff hp (hlengths inner hinner) hlength).2 (mem_indices_iff.1 hinner)

end Shape

namespace Tensor

variable {α : Type}

/-! ## Where the elements lie -/

private theorem displacement_arrange_eq_sum (index : List Nat) (strides : List Int) (p : List Nat) :
    displacement (arrange index p) (arrange strides p) =
      (p.map fun axis => Int.ofNat (index.getD axis default) * strides.getD axis default).sum := by
  induction p with
  | nil => rfl
  | cons axis p ih => exact congrArg (_ + ·) ih

/-- Moving the coordinates and the strides alike leads to the same place. -/
theorem displacement_arrange {index p : List Nat} {strides : List Int} (hp : IsPermutation p)
    (hindex : p.length = index.length) (hstrides : p.length = strides.length) :
    displacement (arrange index p) (arrange strides p) = displacement index strides := by
  rw [displacement_arrange_eq_sum, (hp.perm_range.map _).sum_eq, ← displacement_arrange_eq_sum]
  congr 1
  · rw [hindex]
    exact arrange_identity index
  · rw [hstrides]
    exact arrange_identity strides

/-- A transposed view has the elements of the tensor at moved multi-indices. -/
theorem element?_permuteBy {t : Tensor α} {p index : List Nat} (hp : IsPermutation p)
    (hrank : p.length = t.shape.length) (hindex : p.length = index.length) :
    (t.permuteBy p).element? (arrange index p) = t.element? index := by
  simp only [element?, place, permuteBy, displacement_arrange hp hindex (hrank.trans t.strided.symm)]

/-! ## Packed tensors -/

theorem element?_packed {dtype : DType} {shape index : List Nat} (data : Array α) :
    (packed dtype shape data).element? index =
      data[Shape.distance index (Shape.strides shape)]? := by
  simp only [element?, place, packed, displacement_strides, Int.zero_add]
  rfl

/-- What is computed for every linear index is there at every multi-index. -/
theorem element?_packed_range {dtype : DType} {shape index : List Nat}
    (h : Shape.Within index shape) (f : Nat → α) :
    (packed dtype shape ((Array.range (Shape.size shape)).map f)).element? index =
      some (f (Shape.distance index (Shape.strides shape))) := by
  have hlt := Shape.distance_lt_size h
  rw [element?_packed, Array.getElem?_map, Array.getElem?_range, if_pos hlt]
  rfl

/-! ## Transposing by numbers -/

private theorem distinctAxes_eq {rank : Nat} {before : List Nat} {xs : List Number} {p : List Nat}
    (hread : xs.mapM Number.toNat? = some p) (hlt : ∀ axis ∈ p, axis < rank)
    (hnew : (before ++ p).Nodup) : distinctAxes rank before xs = .ok p := by
  have hentries := mapM_eq_some_iff.1 hread
  clear hread
  induction hentries generalizing before with
  | nil => rfl
  | @cons x axis xs p hx _ ih =>
      obtain ⟨haxis, hrest⟩ := List.forall_mem_cons.1 hlt
      have hmem : axis ∉ before := fun hmem =>
        (List.nodup_append.1 hnew).2.2 axis hmem axis List.mem_cons_self rfl
      have hlater : (axis :: before ++ p).Nodup := (List.perm_middle.nodup_iff).1 hnew
      simp only [distinctAxes, hx, Nat.not_le.2 haxis, if_false]
      rw [if_neg (by simpa using hmem), ih hrest hlater]
      rfl

theorem distinctAxes_of_ofNumbers? {perm : List Number} {p : List Nat}
    (hp : ofNumbers? perm = some p) : distinctAxes p.length [] perm = .ok p := by
  obtain ⟨hread, hlt⟩ := ofNumbers?_eq_some_iff.1 hp
  exact distinctAxes_eq hread hlt.2 hlt.1

/-- Numbers that form a permutation of the rank are accepted. -/
theorem permute_eq {t : Tensor α} {perm : List Number} {p : List Nat} (hp : ofNumbers? perm = some p)
    (hrank : t.rank = p.length) : t.permute perm = .ok (t.permuteBy p) := by
  rw [permute, hrank, if_pos (length_eq_of_ofNumbers? hp), distinctAxes_of_ofNumbers? hp]
  rfl

theorem permuteBy_permuteBy (t : Tensor α) (p : List Nat) {q : List Nat}
    (hq : ∀ axis ∈ q, axis < p.length) :
    (t.permuteBy p).permuteBy q = t.permuteBy (compose p q) := by
  simp only [permuteBy, arrange_arrange _ _ hq]

theorem permuteBy_identity (t : Tensor α) : t.permuteBy (identity t.rank) = t := by
  have hshape : arrange t.shape (identity t.rank) = t.shape := arrange_identity t.shape
  have hrank : t.strides.length = t.rank := t.strided
  have hkept : arrange t.strides (identity t.rank) = t.strides := hrank ▸ arrange_identity t.strides
  simp only [permuteBy, hshape, hkept]

end Tensor

namespace LooseTensor

variable {α : Type}

theorem permute_eq {t : LooseTensor α} {perm : List Number} {p : List Nat}
    (hp : ofNumbers? perm = some p) (hrank : t.shape.length = p.length) :
    t.permute perm = .ok (t.permuteBy p) := by
  rw [permute, hrank, if_pos (length_eq_of_ofNumbers? hp), Tensor.distinctAxes_of_ofNumbers? hp]
  rfl

theorem permuteBy_permuteBy (t : LooseTensor α) (p : List Nat) {q : List Nat}
    (hq : ∀ axis ∈ q, axis < p.length) :
    (t.permuteBy p).permuteBy q = t.permuteBy (compose p q) := by
  have hmoved : ∀ xs : List Number,
      (q.map fun axis => (p.map fun axis => xs.getD axis .nan).getD axis .nan) =
        (compose p q).map fun axis => xs.getD axis .nan := fun xs => by
    rw [compose, arrange, List.map_map]
    refine List.map_congr_left fun axis haxis => ?_
    simp [hq axis haxis]
  simp only [permuteBy, hmoved]

theorem permuteBy_identity {t : LooseTensor α} (hstrides : t.strides.length = t.shape.length) :
    t.permuteBy (identity t.shape.length) = t := by
  have hkept : ∀ xs : List Number, xs.length = t.shape.length →
      (identity t.shape.length).map (fun axis => xs.getD axis .nan) = xs := fun xs hxs => by
    refine List.ext_getElem (by simp [hxs]) fun i h₁ h₂ => ?_
    simp [identity, h₂]
  simp only [permuteBy, hkept _ rfl, hkept _ hstrides]

end LooseTensor

/-! ## Tensors that are transposes of others -/

namespace Tensor

variable {α δ : Type}

/-- Whether a tensor has all of its elements in the buffer. -/
structure Sound (t : Tensor α) : Prop where
  element : ∀ index, Shape.Within index t.shape → ∃ x, t.element? index = some x

theorem sound_iff {t : Tensor α} :
    t.Sound ↔ ∀ index ∈ Shape.indices t.shape, (t.element? index).isSome := by
  constructor
  · intro h index hindex
    exact Option.isSome_iff_exists.2 (h.element index (Shape.mem_indices_iff.1 hindex))
  · intro h
    exact ⟨fun index hindex =>
      Option.isSome_iff_exists.1 (h index (Shape.mem_indices_iff.2 hindex))⟩

instance (t : Tensor α) : Decidable t.Sound := decidable_of_iff _ sound_iff.symm

theorem sound_packed {dtype : DType} {shape : List Nat} {data : Array α}
    (h : Shape.size shape ≤ data.size) : (packed dtype shape data).Sound where
  element index hindex := by
    have hlt := Nat.lt_of_lt_of_le (Shape.distance_lt_size hindex) h
    exact ⟨_, (element?_packed data).trans (Array.getElem?_eq_getElem hlt)⟩

/-- Whether a tensor is another one transposed by a permutation, wherever their elements lie. -/
structure TransposeOf (p : List Nat) (a b : Tensor α) : Prop where
  rank : p.length = b.shape.length
  dtype : a.dtype = b.dtype
  shape : a.shape = arrange b.shape p
  element : ∀ index, Shape.Within index b.shape → a.element? (arrange index p) = b.element? index

/-- Whether two tensors have the same element type, sizes and elements, wherever their elements
lie. -/
structure Same (a b : Tensor α) : Prop where
  dtype : a.dtype = b.dtype
  shape : a.shape = b.shape
  element : ∀ index, Shape.Within index a.shape → a.element? index = b.element? index

/-- A tensor is transposed if its elements are found at transposed multi-indices. -/
theorem transposeOf_of_elements {a b : Tensor α} {p : List Nat} {f g : List Nat → Option α}
    (hp : IsPermutation p) (hrank : p.length = b.shape.length) (hdtype : a.dtype = b.dtype)
    (hshape : a.shape = arrange b.shape p)
    (ha : ∀ index, Shape.Within index a.shape → a.element? index = f index)
    (hb : ∀ index, Shape.Within index b.shape → b.element? index = g index)
    (hfound : ∀ index, Shape.Within index b.shape → f (arrange index p) = g index) :
    a.TransposeOf p b where
  rank := hrank
  dtype := hdtype
  shape := hshape
  element index hindex := by
    have hlength : p.length = index.length := hrank.trans hindex.length_eq.symm
    have hmoved : Shape.Within (arrange index p) a.shape := by
      rw [hshape]
      exact (Shape.within_arrange_iff hp hlength hrank).2 hindex
    rw [ha _ hmoved, hb _ hindex, hfound index hindex]

/-- There is one transpose of a tensor, up to where its elements lie. -/
theorem TransposeOf.same {a b c : Tensor α} {p : List Nat} (hp : IsPermutation p)
    (ha : a.TransposeOf p c) (hb : b.TransposeOf p c) : a.Same b where
  dtype := ha.dtype.trans hb.dtype.symm
  shape := ha.shape.trans hb.shape.symm
  element index hindex := by
    have hlength : p.length = index.length := by rw [hindex.length_eq, ha.shape, length_arrange]
    have hback : arrange (arrange index (invert p)) p = index := arrange_arrange_invert hp hlength
    rw [← hback, ha.shape] at hindex
    have hinner := (Shape.within_arrange_iff hp (by simp) ha.rank).1 hindex
    rw [← hback, ha.element _ hinner, hb.element _ hinner]

theorem transposeOf_permuteBy {t : Tensor α} {p : List Nat} (hp : IsPermutation p)
    (hrank : p.length = t.shape.length) : (t.permuteBy p).TransposeOf p t where
  rank := hrank
  dtype := rfl
  shape := rfl
  element _ hindex := element?_permuteBy hp hrank (hrank.trans hindex.length_eq.symm)

theorem Sound.permuteBy {t : Tensor α} (ht : t.Sound) {p : List Nat} (hp : IsPermutation p)
    (hrank : p.length = t.shape.length) : (t.permuteBy p).Sound where
  element index hindex := by
    have hlength : p.length = index.length := by
      rw [hindex.length_eq]
      exact (length_arrange _ _).symm
    have hback : arrange (arrange index (invert p)) p = index := arrange_arrange_invert hp hlength
    rw [← hback] at hindex ⊢
    have hinner := (Shape.within_arrange_iff hp (by simp) hrank).1 hindex
    obtain ⟨x, hx⟩ := ht.element _ hinner
    refine ⟨x, Eq.trans ?_ hx⟩
    exact element?_permuteBy hp hrank (by simp)

/-- Two rows of three numbers, read as three rows of two. -/
def turned : Tensor Int := (packed .int64 [2, 3] #[1, 2, 3, 4, 5, 6]).permuteBy [1, 0]

/-- Permutations of a rank act on what has that rank: transposing by one and then by another is
transposing by their composition, and the inverse undoes a transposition. Composing is associative,
the permutation that moves nothing is neutral, and two permutations pass the test for undoing each
other exactly if one is the inverse of the other. -/
theorem permute_action [Inhabited δ] {ps qs : List Number} {p q s : List Nat}
    (hp : ofNumbers? ps = some p) (hq : ofNumbers? qs = some q) (hs : IsPermutation s)
    (hpq : q.length = p.length) (hps : s.length = p.length) :
    (∃ both, composeNumbers ps qs = .ok (both.map some) ∧ ofNumbers? both = some (compose p q) ∧
      (∀ t : Tensor α, t.rank = p.length → ∃ once twice, t.permute ps = .ok once ∧
        once.permute qs = .ok twice ∧ t.permute both = .ok twice) ∧
      (∀ t : LooseTensor α, t.shape.length = p.length → ∃ once twice, t.permute ps = .ok once ∧
        once.permute qs = .ok twice ∧ t.permute both = .ok twice) ∧
      ∀ dims : List δ, dims.length = p.length → ∃ once twice : List δ,
        permuteShape dims ps = .ok (once.map some) ∧ permuteShape once qs = .ok (twice.map some) ∧
          permuteShape dims both = .ok (twice.map some)) ∧
    (invertNumbers ps = .ok (invert p) ∧
      (∀ t : Tensor α, t.rank = p.length → ∃ once, t.permute ps = .ok once ∧
        once.TransposeOf p t ∧ once.permute (toNumbers (invert p)) = .ok t) ∧
      (∀ t : LooseTensor α, t.shape.length = p.length → t.strides.length = t.shape.length →
        ∃ once, t.permute ps = .ok once ∧ once.permute (toNumbers (invert p)) = .ok t) ∧
      ∀ dims : List δ, dims.length = p.length → ∃ once : List δ,
        permuteShape dims ps = .ok (once.map some) ∧
          permuteShape once (toNumbers (invert p)) = .ok (dims.map some)) ∧
    compose (compose p q) s = compose p (compose q s) ∧
    compose p (identity p.length) = p ∧ compose (identity p.length) p = p ∧
    compose p (invert p) = identity p.length ∧ compose (invert p) p = identity p.length ∧
    (areInverseNumbers ps qs = true ↔ q = invert p) := by
  have hperm := ofNumbers?_isPermutation hp
  have hperm' := ofNumbers?_isPermutation hq
  have hlt : ∀ axis ∈ q, axis < p.length := hpq ▸ hperm'.2
  have hboth := ofNumbers?_arrange hp hperm' hpq
  have hinverse : ofNumbers? (toNumbers (invert p)) = some (invert p) :=
    ofNumbers?_ofNat (invert_isPermutation hperm)
  have hlt' : ∀ axis ∈ invert p, axis < p.length := by
    simpa using (invert_isPermutation hperm).2
  refine ⟨⟨arrange ps q, composeNumbers_eq hp hq hpq, hboth, ?_, ?_, ?_⟩,
    ⟨invertNumbers_eq hp, ?_, ?_, ?_⟩, ?_, compose_identity p, identity_compose hperm.2,
    compose_invert hperm, invert_compose hperm, areInverseNumbers_iff hp hq hpq⟩
  · intro t hrank
    refine ⟨_, _, permute_eq hp hrank, permute_eq hq (by simp [rank, permuteBy, hpq]), ?_⟩
    rw [permute_eq hboth (by rw [hrank, length_compose, hpq]), permuteBy_permuteBy t p hlt]
  · intro t hrank
    refine ⟨_, _, LooseTensor.permute_eq hp hrank, LooseTensor.permute_eq hq (by simp [hpq]), ?_⟩
    rw [LooseTensor.permute_eq hboth (by rw [hrank, length_compose, hpq]),
      LooseTensor.permuteBy_permuteBy t p hlt]
  · intro dims hrank
    refine ⟨_, _, permuteShape_eq hp hrank.symm, permuteShape_eq hq (by simp [hpq]), ?_⟩
    rw [permuteShape_eq hboth (by rw [hrank, length_compose, hpq]), arrange_arrange _ _ hlt]
  · intro t hrank
    refine ⟨_, permute_eq hp hrank, transposeOf_permuteBy hperm hrank.symm, ?_⟩
    rw [permute_eq hinverse (by simp [rank, permuteBy]), permuteBy_permuteBy t p hlt',
      compose_invert hperm, ← hrank, permuteBy_identity]
  · intro t hrank hstrides
    refine ⟨_, LooseTensor.permute_eq hp hrank, ?_⟩
    rw [LooseTensor.permute_eq hinverse (by simp), LooseTensor.permuteBy_permuteBy t p hlt',
      compose_invert hperm, ← hrank, LooseTensor.permuteBy_identity hstrides]
  · intro dims hrank
    have hlength : (invert p).length = (arrange dims p).length := by simp
    refine ⟨_, permuteShape_eq hp hrank.symm, ?_⟩
    rw [permuteShape_eq hinverse hlength, arrange_invert_arrange hperm hrank.symm]
  · apply compose_assoc
    rw [hpq, ← hps]
    exact hs.2

/-- A tensor of rank three whose elements count through its buffer. -/
def counting : Tensor Nat := packed .int64 [2, 3, 4] (Array.range 24)

/-- A circle of the axes, and an exchange of two of them, which do not commute. -/
theorem permute_action_counting :
    ofNumbers? [.int 1, .int 2, .int 0] = some [1, 2, 0] ∧
      ofNumbers? [.int 1, .int 0, .int 2] = some [1, 0, 2] ∧
      (∃ once twice, counting.permute [.int 1, .int 2, .int 0] = .ok once ∧
        once.permute [.int 1, .int 0, .int 2] = .ok twice ∧
        counting.permute [.int 2, .int 1, .int 0] = .ok twice ∧ twice.shape = [4, 3, 2]) ∧
      (∃ once, counting.permute [.int 1, .int 2, .int 0] = .ok once ∧
        once.permute [.int 2, .int 0, .int 1] = .ok counting) ∧
      areInverseNumbers [.int 1, .int 2, .int 0] [.int 1, .int 0, .int 2] = false := by
  have hp : ofNumbers? [.int 1, .int 2, .int 0] = some [1, 2, 0] := by decide
  have hq : ofNumbers? [.int 1, .int 0, .int 2] = some [1, 0, 2] := by decide
  obtain ⟨⟨both, hboth, -, htwice, -⟩, ⟨-, hback, -⟩, -, -, -, -, -, htest⟩ :=
    permute_action (α := Nat) (δ := Nat) (s := [2, 0, 1]) hp hq (by decide) rfl rfl
  have heq : both = [.int 2, .int 1, .int 0] := by
    have hentries : both.map some = [.int 2, .int 1, .int 0].map some :=
      Except.ok.inj (hboth.symm.trans rfl)
    exact List.map_inj_right (fun _ _ => Option.some.inj) |>.1 hentries
  subst heq
  refine ⟨hp, hq, ?_, ?_, ?_⟩
  · obtain ⟨once, twice, honce, hagain, hsame⟩ := htwice counting rfl
    have heq : counting.permuteBy [2, 1, 0] = twice := Except.ok.inj hsame
    exact ⟨once, twice, honce, hagain, hsame, by rw [← heq]; rfl⟩
  · obtain ⟨once, honce, -, hundone⟩ := hback counting rfl
    exact ⟨once, honce, hundone⟩
  · rw [Bool.eq_false_iff, ne_eq, htest]
    decide

end Tensor

end TensorGraph
