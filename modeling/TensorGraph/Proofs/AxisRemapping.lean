import TensorGraph.Execution.Kernel
import TensorGraph.Optimizer.Transposition
import TensorGraph.Proofs.Joining
import TensorGraph.Proofs.Shortcuts
import TensorGraph.Proofs.Summing

/-!
# Axes on both sides of a transposition

A node that joins or reduces along axes names them by number. When a transposition moves past the
node, axis `i` becomes the axis `p[i]` of the permutation, and the node computes the same values in
the other layout: what it yields behind the transposition is the transpose of what it yields with the
remapped axes ahead of it.

## Main results

* `mapAxis?_toNumbers`, `axesOf_mapAxis?` -- the remapped axes are those that axes are moved from.
* `Node.concat_remapped`, `Node.reduce_remapped` -- a joining and a reducing node with remapped axes.
* `Node.kernel_remapped` -- both together.
-/

namespace TensorGraph

open Permutation

/-! ## Axes -/

theorem axisIndex?_ofNat {rank i : Nat} (hi : i < rank) : axisIndex? (.ofNat i) rank = some i := by
  have hnot : ¬ (rank : Int) ≤ i := by omega
  have hpos : ¬ (i : Int) < 0 := by omega
  simp [axisIndex?, normalizeAxis?, Number.ofNat, Number.below, Number.atMost, hnot, hpos,
    Number.toNat?]

section Axes

variable {p : List Nat}

/-- An axis behind a transposition is mapped to the one that it is moved from. -/
theorem mapAxis?_toNumbers {axis : Number} {i : Nat} (h : axisIndex? axis p.length = some i)
    (hi : i < p.length) : mapAxis? axis (toNumbers p) = some (.ofNat p[i]) := by
  have hlength : (toNumbers p).length = p.length := List.length_map _
  rw [mapAxis?, hlength, h]
  simp [toNumbers, hi]

theorem axisIndex?_moved (hp : IsPermutation p) {i : Nat} (hi : i < p.length) :
    axisIndex? (.ofNat p[i]) p.length = some p[i] :=
  axisIndex?_ofNat (hp.2 p[i] (List.getElem_mem hi))

/-- A list of axes in range is mapped, to axes that are moved from. -/
theorem axesOf_mapAxis? (hp : IsPermutation p) {xs : List Number}
    (hxs : ∀ x ∈ xs, (axisIndex? x p.length).isSome) :
    ∃ ys reduced reduced', xs.mapM (fun x => mapAxis? x (toNumbers p)) = some ys ∧
      Tensor.axesOf p.length (xs.map some) = .ok reduced ∧
      Tensor.axesOf p.length (ys.map some) = .ok reduced' ∧ Tensor.MovedAxes p reduced reduced' := by
  induction xs with
  | nil => exact ⟨[], [], [], rfl, rfl, rfl, fun i _ => by simp⟩
  | cons x xs ih =>
      obtain ⟨hx, hrest⟩ := List.forall_mem_cons.1 hxs
      obtain ⟨i, hi⟩ := Option.isSome_iff_exists.1 hx
      obtain ⟨ys, reduced, reduced', hys, hreduced, hreduced', hmoved⟩ := ih hrest
      have hlt := axisIndex?_lt hi
      have hmap := mapAxis?_toNumbers hi hlt
      have hindex := axisIndex?_moved hp hlt
      unfold Tensor.axesOf at hreduced hreduced' ⊢
      refine ⟨.ofNat p[i] :: ys, i :: reduced, p[i] :: reduced', ?_, ?_, ?_, fun k hk => ?_⟩
      · rw [List.mapM_cons, hmap, hys]
        rfl
      · rw [List.map_cons, List.mapM_cons, hreduced]
        simp [hi, bind, Except.bind, pure, Except.pure]
      · rw [List.map_cons, List.mapM_cons, hreduced']
        simp [hindex, bind, Except.bind, pure, Except.pure]
      · rw [List.mem_cons, List.mem_cons, hmoved k hk, hp.1.getElem_inj_iff]

end Axes

/-! ## Nodes -/

namespace Node

variable {n : Node} {p : List Nat}

theorem attribute?_of_number? {key : String} {x : Number} (h : n.number? key = some x) :
    n.attribute? key = some (.number x) := by
  unfold number? at h
  split at h
  · rename_i hfound
    rw [hfound, Option.some.inj h]
  · cases h

/-- A joining node can be given the axis that its axis is moved from. -/
theorem axis_remapped {axis : Number} {i : Nat} (haxis : n.number? "axis" = some axis)
    (hin : axisIndex? axis p.length = some i) (hi : i < p.length) :
    ∃ attributes, remapAxes n Capability.joinRule (toNumbers p) = some attributes ∧
      ({ n with attributes } : Node).number? "axis" = some (.ofNat p[i]) := by
  have hfound : n.attribute? AxisAttribute.axis.key = some (.number axis) :=
    attribute?_of_number? haxis
  refine ⟨Attributes.set n.attributes "axis" (.number (.ofNat p[i])), ?_, ?_⟩
  · simp only [remapAxes, Capability.joinRule, hfound, mapAxis?_toNumbers hin hi]
    rfl
  · rw [number?, attribute?, Attributes.lookup_set]

/-- How a reducing node reduces, unless a second operand says along which axes. -/
def reduction (n : Node) : Tensor.ReduceOptions :=
  { axes := (n.numbers? "axes").map fun axes => axes.map some
    keepDims := ((n.number? "keepdims").getD (.int 1)).same (.int 1) }

/-- A reducing node that keeps its axes can be given the axes that its axes are moved from. -/
theorem reduction_remapped (hp : IsPermutation p) (hkeep : n.reduction.keepDims = true)
    (haxes : n.attribute? "axes" = none ∨ ∃ xs, n.attribute? "axes" = some (.numbers xs) ∧
      ∀ x ∈ xs, (axisIndex? x p.length).isSome) :
    ∃ attributes reduced reduced', remapAxes n Capability.reduceRule (toNumbers p) = some attributes ∧
      ({ n with attributes } : Node).reduction.keepDims = true ∧
      n.reduction.reduced p.length = .ok reduced ∧
      ({ n with attributes } : Node).reduction.reduced p.length = .ok reduced' ∧
      Tensor.MovedAxes p reduced reduced' := by
  have hkeep' : (((n.number? "keepdims").getD (.int 1)).same (.int 1)) = true := hkeep
  rcases haxes with hnone | ⟨xs, hxs, hrange⟩
  · have hnone' : n.attribute? AxisAttribute.axes.key = none := hnone
    have hall : n.reduction.reduced p.length = .ok (List.range p.length) := by
      rw [Tensor.ReduceOptions.reduced, reduction, numbers?, hnone]
      rfl
    refine ⟨n.attributes, List.range p.length, List.range p.length, ?_, hkeep, hall, hall,
      fun i hi => ?_⟩
    · simp [remapAxes, Capability.reduceRule, hnone', hkeep']
    · simp [hi, hp.2 p[i] (List.getElem_mem hi)]
  · obtain ⟨ys, reduced, reduced', hys, hreduced, hreduced', hmoved⟩ := axesOf_mapAxis? hp hrange
    have hfound : n.attribute? AxisAttribute.axes.key = some (.numbers xs) := hxs
    refine ⟨Attributes.set n.attributes "axes" (.numbers ys), reduced, reduced', ?_, ?_, ?_, ?_,
      hmoved⟩
    · simp only [remapAxes, Capability.reduceRule, hfound, hkeep', hys]
      rfl
    · rw [reduction, number?, attribute?, Attributes.lookup_set_of_ne _ _ (by decide)]
      exact hkeep
    · rw [Tensor.ReduceOptions.reduced, reduction, numbers?, hxs]
      exact hreduced
    · rw [Tensor.ReduceOptions.reduced, reduction, numbers?, attribute?, Attributes.lookup_set]
      exact hreduced'

section Kernels

variable {α : Type} [Scalar α]

/-- What a joining node yields. -/
theorem kernel_concat {axis : Number} (hop : n.op = "Concat") (haxis : n.number? "axis" = some axis)
    (operands : List (Tensor α)) :
    kernel n operands = (Tensor.concat operands axis).map fun c => [c] := by
  have hunary : unaryKernels.lookup "Concat" = none := by decide
  have hfold : foldKernels.lookup "Concat" = none := by decide
  simp only [kernel, hop, hunary, hfold, namedKernel, haxis]
  show (Tensor.concat operands axis >>= fun c => pure [c]) = _
  cases Tensor.concat operands axis <;> rfl

/-- What a summing node yields. -/
theorem kernel_reduceSum (hop : n.op = "ReduceSum") (t : Tensor α) :
    kernel n [t] = (t.sum n.reduction).map fun c => [c] := by
  have hunary : unaryKernels.lookup "ReduceSum" = none := by decide
  have hfold : foldKernels.lookup "ReduceSum" = none := by decide
  simp only [kernel, hop, hunary, hfold, namedKernel]
  show (t.sum n.reduction >>= fun c => pure [c]) = _
  cases t.sum n.reduction <;> rfl

/-- What an averaging node yields. -/
theorem kernel_reduceMean (hop : n.op = "ReduceMean") (t : Tensor α) :
    kernel n [t] = (t.mean n.reduction).map fun c => [c] := by
  have hunary : unaryKernels.lookup "ReduceMean" = none := by decide
  have hfold : foldKernels.lookup "ReduceMean" = none := by decide
  simp only [kernel, hop, hunary, hfold, namedKernel]
  show (t.mean n.reduction >>= fun c => pure [c]) = _
  cases t.mean n.reduction <;> rfl

/-- Whether a node yields for some operands the transpose of what another node yields for others. If
its sizes are roomy, both are constructed. -/
def YieldsTransposed (perm : List Number) (n m : Node) (as bs : List (Tensor α)) : Prop :=
  ∃ c d u, kernel n as = .ok [c] ∧ kernel m bs = .ok [d] ∧ d.permute perm = .ok u ∧ c.Same u ∧
    (Shape.Roomy c.shape → c.constructed = .ok c ∧ d.constructed = .ok d)

private theorem yieldsTransposed_of {m : Node} {as bs : List (Tensor α)} {c d : Tensor α}
    (hp : IsPermutation p) (hc : kernel n as = .ok [c]) (hd : kernel m bs = .ok [d])
    (hfilled : c.Filled) (hfilled' : d.Filled) (h : c.TransposeOf p d) :
    YieldsTransposed (toNumbers p) n m as bs := by
  refine ⟨c, d, d.permuteBy p, hc, hd, Tensor.permute_eq (ofNumbers?_ofNat hp) h.rank.symm,
    h.same hp (Tensor.transposeOf_permuteBy hp h.rank), fun hroomy => ?_⟩
  have hroomy' : Shape.Roomy d.shape := by
    rwa [h.shape, Shape.Roomy.arrange_iff hp h.rank] at hroomy
  exact ⟨hfilled.constructed hroomy, hfilled'.constructed hroomy'⟩

/-- A joining node behind a transposition, and with its axis remapped ahead of it. -/
theorem concat_remapped {operands : List (Passed α)} {axis : Number} {i : Nat}
    (hop : n.op = "Concat") (hp : IsPermutation p) (haxis : n.number? "axis" = some axis)
    (hin : axisIndex? axis p.length = some i) (hsome : operands ≠ [])
    (hsuits : ∀ x ∈ operands, x.Suits p.length)
    (hsound : ∀ t, Passed.tensor t ∈ operands → t.Sound)
    (hagree : ∀ a as, operands.mapM (Passed.behind (toNumbers p)) = .ok (a :: as) →
      a.shape.length = p.length ∧ Tensor.AgreeOff i a.shape as) :
    ∃ attributes as bs, remapAxes n Capability.joinRule (toNumbers p) = some attributes ∧
      operands.mapM (Passed.behind (toNumbers p)) = .ok as ∧
      operands.mapM (Passed.ahead p) = .ok bs ∧
      YieldsTransposed (toNumbers p) n { n with attributes } as bs := by
  have hlt := axisIndex?_lt hin
  obtain ⟨attributes, hremapped, haxis'⟩ := axis_remapped haxis hin hlt
  obtain ⟨as, bs, has, hbs, hall, -, hsounds⟩ :=
    Passed.forall₂_aligned (ofNumbers?_ofNat hp) hsuits
  obtain ⟨hbehind, hahead⟩ := hsounds hsound
  refine ⟨attributes, as, bs, hremapped, has, hbs, ?_⟩
  cases hall with
  | nil =>
      cases operands with
      | nil => exact absurd rfl hsome
      | cons x xs =>
          cases hx : x.behind (toNumbers p) <;> cases hxs : xs.mapM (Passed.behind (toNumbers p)) <;>
            simp [hx, hxs, bind, Except.bind, pure, Except.pure] at has
  | @cons a b as bs hfirst hrest =>
      obtain ⟨hrank, hagree⟩ := hagree a as has
      have hagree' : Tensor.AgreeOff i a.shape (a :: as) := List.forall_mem_cons.2 ⟨rfl, hagree⟩
      -- no operand lacks an axis, since the first does not and they agree
      have htransposes : List.Forall₂ (Tensor.TransposeOf p) (a :: as) (b :: bs) := by
        refine Tensor.forall₂_transposeOf (.cons hfirst hrest) fun t ht => ?_
        have hlength := congrArg List.length (hagree' t ht)
        rw [List.length_set, List.length_set] at hlength
        rw [hlength, hrank]
      obtain ⟨c, d, hc, hd, htranspose⟩ := Tensor.concat_transposeOf hp hlt htransposes hin
        (axisIndex?_moved hp hlt) hagree' hbehind hahead
      refine yieldsTransposed_of hp ?_ ?_ (Tensor.filled_concat hc) (Tensor.filled_concat hd)
        htranspose
      · rw [kernel_concat hop haxis, hc]
        rfl
      · rw [kernel_concat (n := { n with attributes }) hop haxis', hd]
        rfl

/-- A reducing node behind a transposition, and with its axes remapped ahead of it. -/
theorem reduce_remapped {t : Tensor α}
    (hassoc : ∀ x y z : α, Scalar.combine .add (Scalar.combine .add x y) z =
      Scalar.combine .add x (Scalar.combine .add y z))
    (hcomm : ∀ x y : α, Scalar.combine .add x y = Scalar.combine .add y x)
    (hop : n.op = "ReduceSum" ∨ n.op = "ReduceMean") (hp : IsPermutation p)
    (hkeep : n.reduction.keepDims = true)
    (haxes : n.attribute? "axes" = none ∨ ∃ xs, n.attribute? "axes" = some (.numbers xs) ∧
      ∀ x ∈ xs, (axisIndex? x p.length).isSome)
    (hrank : t.rank = p.length) :
    ∃ attributes a, remapAxes n Capability.reduceRule (toNumbers p) = some attributes ∧
      t.permute (toNumbers p) = .ok a ∧
      YieldsTransposed (toNumbers p) n { n with attributes } [a] [t] := by
  obtain ⟨attributes, reduced, reduced', hremapped, hkeep', hreduced, hreduced', hmoved⟩ :=
    reduction_remapped hp hkeep haxes
  have htranspose := Tensor.transposeOf_permuteBy hp hrank.symm
  refine ⟨attributes, t.permuteBy p, hremapped, Tensor.permute_eq (ofNumbers?_ofNat hp) hrank, ?_⟩
  rcases hop with hop | hop
  · obtain ⟨c, d, hc, hd, hsum⟩ :=
      htranspose.sum hassoc hcomm hp hkeep hkeep' hreduced hreduced' hmoved
    refine yieldsTransposed_of hp ?_ ?_ (Tensor.filled_sum hc) (Tensor.filled_sum hd) hsum
    · rw [kernel_reduceSum hop, hc]
      rfl
    · rw [kernel_reduceSum (n := { n with attributes }) hop, hd]
      rfl
  · obtain ⟨c, d, hc, hd, hmean⟩ :=
      htranspose.mean hassoc hcomm hp hkeep hkeep' hreduced hreduced' hmoved
    refine yieldsTransposed_of hp ?_ ?_ (Tensor.filled_mean hc) (Tensor.filled_mean hd) hmean
    · rw [kernel_reduceMean hop, hc]
      rfl
    · rw [kernel_reduceMean (n := { n with attributes }) hop, hd]
      rfl

end Kernels

/-- A node that joins or reduces along axes yields behind a transposition the transpose of what it
yields with remapped axes ahead of it. Any number of tensors and literals of the rank is joined, which
agree off the axis; a tensor is reduced along a list of axes, which may be counted from the end and
named more than once, or along all of them. -/
theorem kernel_remapped {α : Type} [Scalar α] (hp : IsPermutation p) :
    (∀ {operands : List (Passed α)} {axis : Number} {i : Nat}, n.op = "Concat" →
      n.number? "axis" = some axis → axisIndex? axis p.length = some i → operands ≠ [] →
      (∀ x ∈ operands, x.Suits p.length) → (∀ t, Passed.tensor t ∈ operands → t.Sound) →
      (∀ a as, operands.mapM (Passed.behind (toNumbers p)) = .ok (a :: as) →
        a.shape.length = p.length ∧ Tensor.AgreeOff i a.shape as) →
      ∃ attributes as bs, remapAxes n Capability.joinRule (toNumbers p) = some attributes ∧
        operands.mapM (Passed.behind (toNumbers p)) = .ok as ∧
        operands.mapM (Passed.ahead p) = .ok bs ∧
        YieldsTransposed (toNumbers p) n { n with attributes } as bs) ∧
    (∀ {t : Tensor α}, (∀ x y z : α, Scalar.combine .add (Scalar.combine .add x y) z =
        Scalar.combine .add x (Scalar.combine .add y z)) →
      (∀ x y : α, Scalar.combine .add x y = Scalar.combine .add y x) →
      n.op = "ReduceSum" ∨ n.op = "ReduceMean" → n.reduction.keepDims = true →
      (n.attribute? "axes" = none ∨ ∃ xs, n.attribute? "axes" = some (.numbers xs) ∧
        ∀ x ∈ xs, (axisIndex? x p.length).isSome) →
      t.rank = p.length →
      ∃ attributes a, remapAxes n Capability.reduceRule (toNumbers p) = some attributes ∧
        t.permute (toNumbers p) = .ok a ∧
        YieldsTransposed (toNumbers p) n { n with attributes } [a] [t]) := by
  constructor
  · intro operands axis i hop haxis hin hsome hsuits hsound hagree
    exact concat_remapped hop hp haxis hin hsome hsuits hsound hagree
  · intro t hassoc hcomm hop hkeep haxes hrank
    exact reduce_remapped hassoc hcomm hop hp hkeep haxes hrank

/-- A node that joins along the last axis. -/
def joining : Node :=
  { name := "join", op := "Concat", inputs := ["x", "c"], outputs := ["y"]
    attributes := [("axis", .number (.int (-1)))] }

/-- A node that sums along the last axis and the first, the last one named twice. -/
def summing : Node :=
  { name := "sum", op := "ReduceSum", inputs := ["x"], outputs := ["y"]
    attributes := [("axes", .numbers [.int (-1), .int 0, .int 2])] }

/-- Six whole numbers on three axes. -/
def shelf : Tensor Int := .packed .int64 [2, 1, 3] #[1, 2, 3, 4, 5, 6]

/-- A literal that can be joined to them once they are transposed. -/
def strip : Literal :=
  { dtype := .int64, dims := [.int 1, .int 3, .int 1], data := [.int 7, .int 8, .int 9] }

theorem kernel_remapped_shelf :
    IsPermutation [1, 2, 0] ∧
      remapAxes joining Capability.joinRule (toNumbers [1, 2, 0]) =
        some [("axis", .number (.int 0))] ∧
      remapAxes summing Capability.reduceRule (toNumbers [1, 2, 0]) =
        some [("axes", .numbers [.int 0, .int 1, .int 0])] ∧
      (∃ as bs, [Passed.tensor shelf, .literal strip].mapM (Passed.behind (toNumbers [1, 2, 0])) =
          .ok as ∧
        [Passed.tensor shelf, .literal strip].mapM (Passed.ahead [1, 2, 0]) = .ok bs ∧
        YieldsTransposed (toNumbers [1, 2, 0]) joining
          { joining with attributes := [("axis", .number (.int 0))] } as bs) ∧
      ∃ a, shelf.permute (toNumbers [1, 2, 0]) = .ok a ∧
        YieldsTransposed (toNumbers [1, 2, 0]) summing
          { summing with attributes := [("axes", .numbers [.int 0, .int 1, .int 0])] } [a] [shelf] := by
  have hp : IsPermutation [1, 2, 0] := by decide
  have hjoin : remapAxes joining Capability.joinRule (toNumbers [1, 2, 0]) =
      some [("axis", .number (.int 0))] := rfl
  have hsum : remapAxes summing Capability.reduceRule (toNumbers [1, 2, 0]) =
      some [("axes", .numbers [.int 0, .int 1, .int 0])] := rfl
  refine ⟨hp, hjoin, hsum, ?_, ?_⟩
  · have hsuits : ∀ x ∈ [Passed.tensor shelf, .literal strip], x.Suits 3 :=
      List.forall_mem_cons.2 ⟨rfl, List.forall_mem_singleton.2
        ⟨by decide, Literal.turnable_of_small (by decide) (by decide) (by decide)⟩⟩
    have hsound : ∀ t, Passed.tensor t ∈ [Passed.tensor shelf, .literal strip] → t.Sound := by
      intro t ht
      obtain rfl : t = shelf := by simpa using ht
      exact Tensor.sound_packed (by decide)
    have hbehind : [Passed.tensor shelf, .literal strip].mapM (Passed.behind (toNumbers [1, 2, 0])) =
        .ok [shelf.permuteBy [1, 2, 0], .packed .int64 [1, 3, 1] #[7, 8, 9]] := rfl
    have hagree : ∀ a as,
        [Passed.tensor shelf, .literal strip].mapM (Passed.behind (toNumbers [1, 2, 0])) =
          .ok (a :: as) → a.shape.length = 3 ∧ Tensor.AgreeOff 2 a.shape as := by
      intro a as h
      obtain ⟨rfl, rfl⟩ := List.cons.inj (Except.ok.inj (hbehind.symm.trans h))
      exact ⟨rfl, List.forall_mem_singleton.2 rfl⟩
    obtain ⟨attributes, as, bs, hattributes, has, hbs, hyields⟩ :=
      (kernel_remapped (n := joining) hp).1 rfl rfl rfl (List.cons_ne_nil _ _) hsuits hsound hagree
    obtain rfl := Option.some.inj (hjoin.symm.trans hattributes)
    exact ⟨as, bs, has, hbs, hyields⟩
  · obtain ⟨attributes, a, hattributes, ha, hyields⟩ := (kernel_remapped (n := summing) hp).2
      (t := shelf) Int.add_assoc Int.add_comm (.inl rfl) rfl (.inr ⟨_, rfl, by decide⟩) rfl
    obtain rfl := Option.some.inj (hsum.symm.trans hattributes)
    exact ⟨a, ha, hyields⟩

/-- A node that joins along the first axis. -/
def stacking : Node := { joining with attributes := [("axis", .number (.int 0))] }

/-- A tensor without elements that can be joined to a parted literal once it is transposed. -/
def sparse (n : Nat) : Tensor Int := .packed .float32 [1, n, 0] #[]

/-- Behind the transposition the operands are joined, but ahead of it the literal is not turned. -/
theorem not_kernel_remapped :
    ofNumbers? [.int 0, .int 2, .int 1] = some [0, 2, 1] ∧
      (Passed.parted (2 ^ 600)).isComplete = true ∧ (sparse (2 ^ 600)).rank = 3 ∧
      (∃ a b c, (Passed.tensor (sparse (2 ^ 600))).behind [.int 0, .int 2, .int 1] = .ok a ∧
        (Passed.literal (Passed.parted (2 ^ 600))).behind [.int 0, .int 2, .int 1] = .ok b ∧
        kernel stacking [a, b] = .ok [c]) ∧
      (Passed.literal (Passed.parted (2 ^ 600)) : Passed Int).ahead [0, 2, 1] =
        .error (.badLength .nan) := by
  have hp : ofNumbers? [.int 0, .int 2, .int 1] = some [0, 2, 1] := by decide
  have hbehind : ∀ n, ∃ a b c, (Passed.tensor (sparse n)).behind [.int 0, .int 2, .int 1] = .ok a ∧
      (Passed.literal (Passed.parted n)).behind [.int 0, .int 2, .int 1] = .ok b ∧
      kernel stacking [a, b] = .ok [c] := by
    intro n
    obtain ⟨b, hb⟩ := Tensor.exists_ofLiteral (α := Int) (Passed.isComplete_parted n)
    have hshape : b.shape = [n, 0, n] := by
      rw [(Tensor.ofLiteral_eq_ok_iff.1 hb).2.2]
      rfl
    have hsparse : (sparse n).Sound := Tensor.sound_packed (by simp)
    have hsound : ∀ t ∈ [(sparse n).permuteBy [0, 2, 1], b], t.Sound :=
      List.forall_mem_cons.2 ⟨hsparse.permuteBy (by decide) rfl,
        List.forall_mem_singleton.2 (Tensor.sound_of_ofLiteral hb)⟩
    have hagree : Tensor.AgreeOff 0 ((sparse n).permuteBy [0, 2, 1]).shape
        [(sparse n).permuteBy [0, 2, 1], b] :=
      List.forall_mem_cons.2 ⟨rfl, List.forall_mem_singleton.2 (by rw [hshape]; rfl)⟩
    have haxis : axisIndex? (.int 0) 3 = some 0 := by decide
    obtain ⟨c, hc, -⟩ := Tensor.concat_eq_ok haxis (Nat.zero_lt_succ 2) hagree hsound
    refine ⟨_, b, c, Tensor.permute_eq hp rfl, hb, ?_⟩
    rw [kernel_concat rfl rfl, hc]
    rfl
  exact ⟨hp, Passed.isComplete_parted _, rfl, hbehind _, Passed.ahead_parted⟩

end Node

end TensorGraph
