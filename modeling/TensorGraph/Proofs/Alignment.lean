import TensorGraph.Proofs.LiteralTensors

/-!
# Operands on both sides of a transposition

A transposition that moves past a node changes what the node reads. Tensors that were read transposed
are read as they are, and literals, which were read as they are, are brought to the rank of the
transposition and turned back. An operand after the move and the one before are aligned: the one is
the transpose of the other, up to axes of size one in front that it may lack.

## Main results

* `Tensor.Aligned.transposeOf` -- an aligned operand that lacks no axes is a transpose.
* `Tensor.aligned_permuteBy` -- a tensor is aligned with its transposed view.
* `Passed.forall₂_aligned` -- operands can be read on both sides, and are aligned.
-/

namespace TensorGraph

open Permutation

namespace Shape

/-- A shape with axes of size one in front, up to a number of axes. -/
def padded (rank : Nat) (dims : List Nat) : List Nat :=
  List.replicate (rank - dims.length) 1 ++ dims

theorem length_padded {rank : Nat} {dims : List Nat} (h : dims.length ≤ rank) :
    (padded rank dims).length = rank := by
  rw [padded, List.length_append, List.length_replicate]
  omega

theorem padded_of_length {rank : Nat} {dims : List Nat} (h : dims.length = rank) :
    padded rank dims = dims := by
  rw [padded, h, Nat.sub_self]
  rfl

theorem drop_padded (rank : Nat) (dims : List Nat) :
    (padded rank dims).drop (rank - dims.length) = dims := by
  have hprefix := List.length_replicate (n := rank - dims.length) (a := 1)
  exact List.drop_left' hprefix

/-- The coordinates along axes of size one in front do not count. -/
theorem distance_replicate_one {count : Nat} {index dims : List Nat}
    (h : Within index (List.replicate count 1 ++ dims)) :
    distance index (strides (List.replicate count 1 ++ dims)) =
      distance (index.drop count) (strides dims) := by
  induction count generalizing index with
  | zero => rfl
  | succ count ih =>
      cases index with
      | nil => exact h.elim
      | cons i index =>
          obtain rfl : i = 0 := by have := h.1; omega
          show 0 * _ + distance index (strides (List.replicate count 1 ++ dims)) = _
          rw [ih h.2, Nat.zero_mul, Nat.zero_add]
          rfl

end Shape

/-! ## Aligned tensors -/

namespace Tensor

variable {α : Type}

/-- Whether a tensor is another one transposed by a permutation, up to axes of size one in front that
it lacks. -/
structure Aligned (p : List Nat) (a b : Tensor α) : Prop where
  rank_le : a.shape.length ≤ p.length
  rank : p.length = b.shape.length
  dtype : a.dtype = b.dtype
  shape : Shape.padded p.length a.shape = arrange b.shape p
  element : ∀ index, Shape.Within index b.shape →
    a.element? ((arrange index p).drop (p.length - a.shape.length)) = b.element? index

variable {a b t : Tensor α} {p : List Nat}

theorem Aligned.transposeOf (h : Aligned p a b) (hrank : a.shape.length = p.length) :
    a.TransposeOf p b where
  rank := h.rank
  dtype := h.dtype
  shape := by rw [← h.shape, Shape.padded_of_length hrank]
  element index hindex := by
    have hread := h.element index hindex
    rwa [hrank, Nat.sub_self, List.drop_zero] at hread

theorem forall₂_transposeOf {as bs : List (Tensor α)} (h : List.Forall₂ (Aligned p) as bs)
    (hrank : ∀ t ∈ as, t.shape.length = p.length) : List.Forall₂ (TransposeOf p) as bs := by
  induction h with
  | nil => exact .nil
  | cons hfirst _ ih =>
      obtain ⟨hlength, hrest⟩ := List.forall_mem_cons.1 hrank
      exact .cons (hfirst.transposeOf hlength) (ih hrest)

theorem TransposeOf.aligned (h : a.TransposeOf p b) : Aligned p a b := by
  have hrank : a.shape.length = p.length := by rw [h.shape, length_arrange]
  refine ⟨Nat.le_of_eq hrank, h.rank, h.dtype, ?_, fun index hindex => ?_⟩
  · rw [Shape.padded_of_length hrank, h.shape]
  · rw [hrank, Nat.sub_self, List.drop_zero]
    exact h.element index hindex

theorem aligned_permuteBy (hp : IsPermutation p) (hrank : p.length = t.shape.length) :
    Aligned p (t.permuteBy p) t :=
  (transposeOf_permuteBy hp hrank).aligned

section Literals

variable [Scalar α] {c wide turned : Literal}

private theorem toNat?_replicate_one (count : Nat) :
    List.Forall₂ (fun d n => Number.toNat? d = some n) (List.replicate count (.int 1))
      (List.replicate count 1) := by
  induction count with
  | zero => exact .nil
  | succ count ih => exact .cons rfl ih

/-- A literal with axes of size one in front has the same elements. -/
theorem exists_padded {rank : Nat} (ha : ofLiteral c = .ok a)
    (hwide : c.padToRank (.ofNat rank) = .ok wide) :
    ∃ t : Tensor α, ofLiteral wide = .ok t ∧ a.dtype = t.dtype ∧ a.shape.length ≤ rank ∧
      wide.dims.length = rank ∧ Shape.padded rank a.shape = t.shape ∧
      ∀ index, Shape.Within index t.shape →
        a.element? (index.drop (rank - a.shape.length)) = t.element? index := by
  obtain ⟨count, rfl, hrank⟩ := Literal.padToRank_ok hwide
  obtain ⟨hsizes, hsize, rfl⟩ := ofLiteral_eq_ok_iff.1 ha
  have hpadded := Literal.sizes_padded c count
  have hcount : count + c.sizes.length = rank := by
    rw [← hrank, List.length_append, List.length_replicate, Literal.length_sizes]
  have hlacks : rank - c.sizes.length = count := by omega
  have hcomplete : ({ c with dims := List.replicate count (.int 1) ++ c.dims } : Literal).isComplete =
      true := by
    refine Literal.isComplete_iff.2 ⟨?_, ?_⟩
    · rw [hpadded]
      exact mapM_eq_some_iff.2 (List.rel_append (toNat?_replicate_one count)
        (mapM_eq_some_iff.1 hsizes))
    · rw [hpadded, ← hsize, Shape.size_eq_prod, List.prod_append, List.prod_replicate, one_pow,
        one_mul, Shape.size_eq_prod]
  obtain ⟨t, ht⟩ := exists_ofLiteral (α := α) hcomplete
  obtain ⟨-, -, rfl⟩ := ofLiteral_eq_ok_iff.1 ht
  refine ⟨_, ht, rfl, Nat.le.intro ((Nat.add_comm _ _).trans hcount), hrank, ?_, fun index hindex => ?_⟩
  · show List.replicate (rank - c.sizes.length) 1 ++ c.sizes = _
    rw [hlacks, ← hpadded]
    rfl
  · have hwithin : Shape.Within index (List.replicate count 1 ++ c.sizes) := hpadded ▸ hindex
    rw [element?_packed, element?_packed, hpadded, Shape.distance_replicate_one hwithin, ← hlacks]
    rfl

/-- A literal is aligned with what it is turned to. -/
theorem aligned_turned (hp : IsPermutation p) (ha : ofLiteral c = .ok a)
    (hwide : c.padToRank (.ofNat p.length) = .ok wide)
    (hturned : wide.transpose (invert p) = .ok turned) :
    ∃ b : Tensor α, ofLiteral turned = .ok b ∧ Aligned p a b := by
  obtain ⟨t, ht, hdtype, hle, hrank, hshape, helement⟩ := exists_padded ha hwide
  have hlength : p.length = t.shape.length := by rw [← hshape, Shape.length_padded hle]
  obtain ⟨b, hb, hturn⟩ := Literal.transposeOf_transpose (invert_isPermutation hp)
    (by rw [length_invert, hrank]) ht hturned
  have hlength' : p.length = b.shape.length := by rw [hturn.shape, length_arrange, length_invert]
  have hback : arrange b.shape p = t.shape := by
    rw [hturn.shape, arrange_arrange_invert hp hlength]
  refine ⟨b, hb, hle, hlength', hdtype.trans hturn.dtype.symm, hshape.trans hback.symm,
    fun index hindex => ?_⟩
  have hindex' : p.length = index.length := hlength'.trans hindex.length_eq.symm
  have hmoved : Shape.Within (arrange index p) t.shape := by
    rw [← hback]
    exact (Shape.within_arrange_iff hp hindex' hlength').2 hindex
  have hread := hturn.element (arrange index p) hmoved
  rw [arrange_invert_arrange hp hindex'] at hread
  rw [helement _ hmoved, hread]

end Literals

end Tensor

/-! ## Operands -/

/-- An operand of a node that a transposition moves past. -/
inductive Passed (α : Type) where
  /-- A tensor that is transposed before the node. -/
  | tensor (t : Tensor α)
  /-- A literal. -/
  | literal (c : Literal)

namespace Passed

variable {α : Type} [Scalar α]

/-- What the node reads behind the transposition. -/
def behind (perm : List Number) : Passed α → Except Failure (Tensor α)
  | tensor t => t.permute perm
  | literal c => Tensor.ofLiteral c

/-- What the node reads ahead of the transposition. -/
def ahead (p : List Nat) : Passed α → Except Failure (Tensor α)
  | tensor t => .ok t
  | literal c => do
      let wide ← c.padToRank (.ofNat p.length)
      let turned ← wide.transpose (invert p)
      Tensor.ofLiteral turned

/-- Whether an operand is a tensor of a rank, or a literal with as many entries as its sizes say that
can be brought to the rank. -/
def Suits (rank : Nat) : Passed α → Prop
  | tensor t => t.rank = rank
  | literal c => c.isComplete = true ∧ c.Turnable rank

/-- An operand is there on both sides. -/
theorem exists_aligned {x : Passed α} {perm : List Number} {p : List Nat}
    (hp : ofNumbers? perm = some p) (hx : x.Suits p.length) :
    ∃ a b, x.behind perm = .ok a ∧ x.ahead p = .ok b ∧ Tensor.Aligned p a b ∧
      ((∀ t, x = .tensor t → t.Sound) → a.Sound ∧ b.Sound) := by
  have hperm := ofNumbers?_isPermutation hp
  cases x with
  | tensor t =>
      have hrank : p.length = t.shape.length := hx.symm
      refine ⟨_, t, Tensor.permute_eq hp hx, rfl, Tensor.aligned_permuteBy hperm hrank,
        fun hsound => ?_⟩
      exact ⟨(hsound t rfl).permuteBy hperm hrank, hsound t rfl⟩
  | literal c =>
      obtain ⟨hcomplete, -, hturns⟩ := hx
      obtain ⟨a, ha⟩ := Tensor.exists_ofLiteral (α := α) hcomplete
      obtain ⟨wide, turned, hwide, hturned⟩ :=
        hturns (invert p) (invert_isPermutation hperm) (length_invert p)
      obtain ⟨b, hb, haligned⟩ := Tensor.aligned_turned hperm ha hwide hturned
      refine ⟨a, b, ha, ?_, haligned, fun _ => ⟨Tensor.sound_of_ofLiteral ha,
        Tensor.sound_of_ofLiteral hb⟩⟩
      simp only [ahead, hwide, hturned, hb, bind, Except.bind]

/-- Operands are there on both sides, one by one. Those that are tensors lack no axes, and if these
have all of their elements, so have all operands. -/
theorem forall₂_aligned {xs : List (Passed α)} {perm : List Number} {p : List Nat}
    (hp : ofNumbers? perm = some p) (hxs : ∀ x ∈ xs, x.Suits p.length) :
    ∃ as bs, xs.mapM (behind perm) = .ok as ∧ xs.mapM (ahead p) = .ok bs ∧
      List.Forall₂ (Tensor.Aligned p) as bs ∧
      (∀ t, .tensor t ∈ xs → ∃ a ∈ as, a.shape.length = p.length) ∧
      ((∀ t, .tensor t ∈ xs → t.Sound) → (∀ a ∈ as, a.Sound) ∧ ∀ b ∈ bs, b.Sound) := by
  induction xs with
  | nil => exact ⟨[], [], rfl, rfl, .nil, by simp, by simp⟩
  | cons x xs ih =>
      obtain ⟨hx, hrest⟩ := List.forall_mem_cons.1 hxs
      obtain ⟨a, b, ha, hb, haligned, hsound⟩ := exists_aligned hp hx
      obtain ⟨as, bs, has, hbs, hall, htensor, hsounds⟩ := ih hrest
      refine ⟨a :: as, b :: bs, ?_, ?_, .cons haligned hall, fun t ht => ?_, fun h => ?_⟩
      · simp only [List.mapM_cons, ha, has, bind, Except.bind]
        rfl
      · simp only [List.mapM_cons, hb, hbs, bind, Except.bind]
        rfl
      · rcases List.mem_cons.1 ht with rfl | ht
        · have hview : t.permuteBy p = a :=
            Except.ok.inj ((Tensor.permute_eq hp hx).symm.trans ha)
          refine ⟨a, List.mem_cons_self, ?_⟩
          rw [← hview]
          exact length_arrange _ _
        · obtain ⟨a', ha', hrank⟩ := htensor t ht
          exact ⟨a', List.mem_cons_of_mem a ha', hrank⟩
      · obtain ⟨hsound, hsound'⟩ := hsound fun t ht => h t (ht ▸ List.mem_cons_self)
        obtain ⟨hsounds, hsounds'⟩ := hsounds fun t ht => h t (List.mem_cons_of_mem x ht)
        exact ⟨List.forall_mem_cons.2 ⟨hsound, hsounds⟩, List.forall_mem_cons.2 ⟨hsound', hsounds'⟩⟩

/-- A literal without entries, two of whose sizes may multiply to more than a double can hold. -/
def parted (n : Nat) : Literal :=
  { dtype := .float32, dims := [.ofNat n, .int 0, .ofNat n], data := [] }

theorem isComplete_parted (n : Nat) : (parted n).isComplete = true :=
  Literal.isComplete_iff.2 ⟨rfl, (Shape.size_cons n [0, n]).trans (by simp [parted])⟩

/-- The literal is not turned to where the two sizes meet before the one that is zero. -/
theorem ahead_parted :
    (literal (parted (2 ^ 600)) : Passed α).ahead [0, 2, 1] = .error (.badLength .nan) := by
  have hcount : Shape.lengthOf (Shape.measured (arrange (parted (2 ^ 600)).sizes [0, 2, 1])) =
      .error (.badLength .nan) := by decide +kernel
  have hturned : (parted (2 ^ 600)).transpose [0, 2, 1] = .error (.badLength .nan) := by
    rw [Literal.transpose, hcount]
    rfl
  have hwide : ∀ n, (parted n).padToRank (.ofNat 3) = .ok (parted n) := fun _ => rfl
  have hself : invert [0, 2, 1] = [0, 2, 1] := by decide
  show (do
    let wide ← (parted (2 ^ 600)).padToRank (.ofNat 3)
    let turned ← wide.transpose (invert [0, 2, 1])
    Tensor.ofLiteral turned) = (_ : Except Failure (Tensor α))
  rw [hwide, hself]
  simp only [bind, Except.bind, hturned]

end Passed

/-! ## Whole numbers as elements -/

/-- Whole numbers, which are added without rounding. A function whose values are not whole numbers
yields zero. -/
instance : Scalar Int where
  ofNumber x := x.toInt?.getD 0
  toNumber := .ofInt
  apply
    | .abs, x => x.natAbs
    | .neg, x => -x
    | .floor, x => x
    | .ceil, x => x
    | .relu, x => max x 0
    | _, _ => 0
  combine
    | .add => (· + ·)
    | .sub => (· - ·)
    | .mul => (· * ·)
    | .div => (· / ·)
    | .max => max
    | .min => min

end TensorGraph
