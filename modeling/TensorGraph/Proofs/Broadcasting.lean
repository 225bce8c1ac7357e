import TensorGraph.Proofs.Alignment
import TensorGraph.Proofs.Constructing

/-!
# Broadcasting across a transposition

Operands of different shapes are combined element by element: their axes are aligned at the innermost
end, axes that are missing outside count as having size one, and an axis of size one repeats along
the other operand. A transposition of all operands turns all of this alike, since the axes that a
literal lacks are put in front of it before it is turned.

## Main results

* `Shape.broadcast?_eq_some`, `Shape.exists_broadcast?` -- the common shape of two operands.
* `Tensor.zipWith_eq_ok`, `Tensor.joins_of_zipWith` -- when two operands are combined, and to which
  elements.
* `Tensor.foldlM_zipConstructed` -- what is combined step by step is constructed if the sizes at the end
  are roomy.
* `Tensor.Aligned.zipWith` -- combining keeps operands aligned.
* `Passed.combine_permute` -- combining any number of operands commutes with a transposition.
-/

namespace TensorGraph

open Permutation

/-- Both computations fail, or both yield values that are related. -/
inductive Together {ε β γ : Type} (R : β → γ → Prop) : Except ε β → Except ε γ → Prop
  | error (e e' : ε) : Together R (.error e) (.error e')
  | ok {b : β} {c : γ} (h : R b c) : Together R (.ok b) (.ok c)

namespace Together

variable {ε β β' γ γ' : Type} {R : β → γ → Prop} {S : β' → γ' → Prop}

theorem imp {R' : β → γ → Prop} {x : Except ε β} {y : Except ε γ} (h : Together R x y)
    (himp : ∀ b c, R b c → R' b c) : Together R' x y := by
  cases h with
  | error e e' => exact .error e e'
  | ok hbc => exact .ok (himp _ _ hbc)

theorem bind {x : Except ε β} {y : Except ε γ} {next : β → Except ε β'} {next' : γ → Except ε γ'}
    (h : Together R x y) (hnext : ∀ b c, R b c → Together S (next b) (next' c)) :
    Together S (x >>= next) (y >>= next') := by
  cases h with
  | error e e' => exact .error e e'
  | ok hbc => exact hnext _ _ hbc

end Together

/-! ## Sizes that go together -/

namespace Shape

/-- Whether an axis is brought to a size: it has that size, or it has size one and repeats. -/
def Fits (size target : Nat) : Prop := size = target ∨ size = 1

/-- Whether two axes are brought to a common size. One of size one does not go together with an empty
one. -/
def Joins (x y : Nat) : Prop := Fits x (max x y) ∧ Fits y (max x y)

/-- Sizes innermost first, with axes of size one outside. -/
private def outward (rank : Nat) (dims : List Nat) : List Nat :=
  dims ++ List.replicate (rank - dims.length) 1

private theorem reverse_padded (rank : Nat) (dims : List Nat) :
    (padded rank dims).reverse = outward rank dims.reverse := by
  simp [padded, outward]

private theorem outward_cons {rank d : Nat} {ds : List Nat} :
    outward (rank + 1) (d :: ds) = d :: outward rank ds := by
  simp [outward]

private theorem zipWith_max_outward {rank : Nat} {dims : List Nat} (h : dims.length ≤ rank) :
    List.zipWith max (outward rank []) (outward rank dims) = outward rank (dims.map (max 1)) := by
  induction dims generalizing rank with
  | nil => simp [outward]
  | cons d ds ih =>
      cases rank with
      | zero => cases h
      | succ rank =>
          have hrest := ih (Nat.le_of_succ_le_succ h)
          rw [List.map_cons, outward_cons, outward_cons, ← hrest]
          rfl

private theorem broadcastInward_nil (dims : List Nat) :
    broadcastInward [] dims = some (dims.map (max 1)) ∧
      broadcastInward dims [] = some (dims.map (max 1)) := by
  have hlarger : (fun d : Nat => Extent.larger d Extent.one) = max 1 := by
    funext d
    exact Nat.max_comm d 1
  constructor
  · rw [broadcastInward]
    rfl
  · cases dims with
    | nil => rfl
    | cons d ds => rw [broadcastInward, hlarger]; exact List.cons_ne_nil d ds

private theorem broadcastInward_spec {rank : Nat} {as bs : List Nat} (has : as.length ≤ rank)
    (hbs : bs.length ≤ rank) :
    (∀ c, broadcastInward as bs = some c → c.length = max as.length bs.length ∧
      outward rank c = List.zipWith max (outward rank as) (outward rank bs)) ∧
    (List.Forall₂ Joins (outward rank as) (outward rank bs) →
      ∃ c, broadcastInward as bs = some c) := by
  induction as generalizing bs rank with
  | nil =>
      refine ⟨fun c hc => ?_, fun _ => ⟨_, (broadcastInward_nil bs).1⟩⟩
      obtain rfl : bs.map (max 1) = c := Option.some.inj ((broadcastInward_nil bs).1.symm.trans hc)
      exact ⟨by simp, (zipWith_max_outward hbs).symm⟩
  | cons a as ih =>
      cases bs with
      | nil =>
          refine ⟨fun c hc => ?_, fun _ => ⟨_, (broadcastInward_nil (a :: as)).2⟩⟩
          obtain rfl : (a :: as).map (max 1) = c :=
            Option.some.inj ((broadcastInward_nil (a :: as)).2.symm.trans hc)
          refine ⟨by simp, ?_⟩
          rw [List.zipWith_comm_of_comm Nat.max_comm, zipWith_max_outward has]
      | cons b bs =>
          cases rank with
          | zero => cases has
          | succ rank =>
              obtain ⟨hfound, hexists⟩ :=
                ih (Nat.le_of_succ_le_succ has) (Nat.le_of_succ_le_succ hbs)
              rw [broadcastInward, outward_cons, outward_cons]
              constructor
              · intro c hc
                split at hc
                · obtain ⟨rest, hrest, rfl⟩ := Option.map_eq_some_iff.1 hc
                  obtain ⟨hlength, heq⟩ := hfound rest hrest
                  refine ⟨by simp [hlength], ?_⟩
                  rw [outward_cons, heq]
                  rfl
                · cases hc
              · intro hall
                obtain ⟨hfirst, hlater⟩ := List.forall₂_cons.1 hall
                obtain ⟨rest, hrest⟩ := hexists hlater
                have hagree : (Extent.agree a b || Extent.agree a Extent.one ||
                    Extent.agree b Extent.one) = true := by
                  show (a == b || a == 1 || b == 1) = true
                  unfold Joins Fits at hfirst
                  simp only [Bool.or_eq_true, beq_iff_eq]
                  omega
                exact ⟨_, by rw [if_pos hagree, hrest]; rfl⟩

variable {rank : Nat} {a b c : List Nat}

/-- The common shape has the larger of the sizes along each axis. -/
theorem broadcast?_eq_some (ha : a.length ≤ rank) (hb : b.length ≤ rank)
    (h : broadcast? a b = some c) : c.length = max a.length b.length ∧
      padded rank c = List.zipWith max (padded rank a) (padded rank b) := by
  obtain ⟨inward, hinward, rfl⟩ := Option.map_eq_some_iff.1 h
  obtain ⟨hlength, heq⟩ := (broadcastInward_spec (List.length_reverse.trans_le ha)
    (List.length_reverse.trans_le hb)).1 inward hinward
  refine ⟨by simpa using hlength, List.reverse_injective ?_⟩
  rw [List.reverse_zipWith (by rw [length_padded ha, length_padded hb]), reverse_padded,
    reverse_padded, reverse_padded, List.reverse_reverse, heq]

theorem exists_broadcast? (ha : a.length ≤ rank) (hb : b.length ≤ rank)
    (h : List.Forall₂ Joins (padded rank a) (padded rank b)) : ∃ c, broadcast? a b = some c := by
  rw [← List.forall₂_reverse_iff, reverse_padded, reverse_padded] at h
  obtain ⟨inward, hinward⟩ := (broadcastInward_spec (List.length_reverse.trans_le ha)
    (List.length_reverse.trans_le hb)).2 h
  exact ⟨_, congrArg (Option.map List.reverse) hinward⟩

/-- Two axes go together if both are brought to the larger of their sizes. -/
theorem forall₂_joins_iff {xs ys : List Nat} (hlength : xs.length = ys.length) :
    List.Forall₂ Joins xs ys ↔ List.Forall₂ Fits xs (List.zipWith max xs ys) ∧
      List.Forall₂ Fits ys (List.zipWith max xs ys) := by
  induction xs generalizing ys with
  | nil =>
      cases ys with
      | nil => simp
      | cons => cases hlength
  | cons x xs ih =>
      cases ys with
      | nil => cases hlength
      | cons y ys =>
          rw [List.zipWith_cons_cons, List.forall₂_cons, List.forall₂_cons, List.forall₂_cons,
            ih (Nat.succ.inj hlength)]
          exact and_and_and_comm

private theorem size_filter_le_zipWith_max {xs ys : List Nat} (hlength : xs.length = ys.length) :
    size (xs.filter (· ≠ 0)) ≤ size ((List.zipWith max xs ys).filter (· ≠ 0)) := by
  induction xs generalizing ys with
  | nil => simp
  | cons x xs ih =>
      cases ys with
      | nil => cases hlength
      | cons y ys =>
          have hfirst : (if x = 0 then 1 else x) ≤ if max x y = 0 then 1 else max x y := by
            split <;> split <;> omega
          rw [List.zipWith_cons_cons, size_filter_cons, size_filter_cons]
          exact Nat.mul_le_mul hfirst (ih (Nat.succ.inj hlength))

private theorem roomy_padded_iff (rank : Nat) (dims : List Nat) :
    Roomy (padded rank dims) ↔ Roomy dims := by
  have hones (count : Nat) : size (List.replicate count 1 ++ dims.filter (· ≠ 0)) =
      size (dims.filter (· ≠ 0)) := by
    rw [size_eq_prod, List.prod_append, List.prod_replicate, one_pow, one_mul, ← size_eq_prod]
  rw [Roomy, padded, List.filter_append, List.filter_eq_self.2 (by simp), hones]
  rfl

/-- Where the common shape of two operands is roomy, so is that of the first. -/
theorem Roomy.of_broadcast? (h : broadcast? a b = some c) (hc : Roomy c) : Roomy a := by
  have ha := Nat.le_max_left a.length b.length
  have hb := Nat.le_max_right a.length b.length
  obtain ⟨-, hsizes⟩ := broadcast?_eq_some ha hb h
  rw [← roomy_padded_iff (max a.length b.length), hsizes] at hc
  rw [← roomy_padded_iff (max a.length b.length)]
  exact Nat.lt_of_le_of_lt
    (size_filter_le_zipWith_max ((length_padded ha).trans (length_padded hb).symm)) hc

private theorem fits_replicate_one (dims : List Nat) :
    List.Forall₂ Fits (List.replicate dims.length 1) dims := by
  induction dims with
  | nil => exact .nil
  | cons d ds ih => exact .cons (.inr rfl) ih

/-- The axes that a shape lacks are brought to any size. -/
theorem fits_padded_iff (ha : a.length ≤ c.length) (hc : c.length ≤ rank) :
    List.Forall₂ Fits (padded rank a) (padded rank c) ↔
      List.Forall₂ Fits a (c.drop (c.length - a.length)) := by
  have hdrop : (padded rank c).drop (rank - a.length) = c.drop (c.length - a.length) := by
    have hsplit : rank - a.length = (rank - c.length) + (c.length - a.length) := by omega
    rw [hsplit, ← List.drop_drop, drop_padded]
  constructor
  · intro h
    have hlater := List.forall₂_drop (rank - a.length) h
    rwa [drop_padded, hdrop] at hlater
  · intro h
    have hlength : ((padded rank c).take (rank - a.length)).length = rank - a.length := by
      rw [List.length_take, length_padded hc]
      omega
    have hfirst := fits_replicate_one ((padded rank c).take (rank - a.length))
    rw [hlength] at hfirst
    have hall := List.rel_append hfirst (hdrop ▸ h)
    change List.Forall₂ Fits (padded rank a) (_ ++ (padded rank c).drop (rank - a.length)) at hall
    rwa [List.take_append_drop] at hall

/-! ## Which element is read -/

/-- The multi-index of the element that is read along repeated axes. -/
def source (dims index : List Nat) : List Nat :=
  List.zipWith (fun d i => if d = 1 then 0 else i) dims index

theorem within_source {dims targets index : List Nat} (hfits : List.Forall₂ Fits dims targets)
    (h : Within index targets) : Within (source dims index) dims := by
  induction hfits generalizing index with
  | nil =>
      cases index with
      | nil => trivial
      | cons => exact h.elim
  | @cons d target ds targets hfirst hrest ih =>
      cases index with
      | nil => exact h.elim
      | cons i index =>
          refine ⟨?_, ih h.2⟩
          show (if d = 1 then 0 else i) < d
          have hlt := h.1
          unfold Fits at hfirst
          split <;> omega

theorem source_self {dims index : List Nat} (h : Within index dims) : source dims index = index := by
  induction dims generalizing index with
  | nil =>
      cases index with
      | nil => rfl
      | cons => exact h.elim
  | cons d ds ih =>
      cases index with
      | nil => exact h.elim
      | cons i index =>
          have hcoordinate : (if d = 1 then 0 else i) = i := by
            have hlt := h.1
            split <;> omega
          show (if d = 1 then 0 else i) :: source ds index = i :: index
          rw [hcoordinate, ih h.2]

/-- The coordinates along axes that a shape lacks do not matter to what is read. -/
theorem drop_source_padded (rank : Nat) (dims index : List Nat) :
    (source (padded rank dims) index).drop (rank - dims.length) =
      source dims (index.drop (rank - dims.length)) := by
  rw [source, List.drop_zipWith, drop_padded]
  rfl

theorem within_drop {index dims : List Nat} (h : Within index dims) (count : Nat) :
    Within (index.drop count) (dims.drop count) :=
  within_iff.2 (List.forall₂_drop count (within_iff.1 h))

end Shape

namespace Tensor

variable {α : Type}

/-! ## Stretched views -/

private theorem displacement_replicate_zero (count : Nat) (index : List Nat) (strides : List Int) :
    displacement index (List.replicate count 0 ++ strides) =
      displacement (index.drop count) strides := by
  induction count generalizing index with
  | zero => rfl
  | succ count ih =>
      cases index with
      | nil => cases strides <;> rfl
      | cons i index =>
          show Int.ofNat i * 0 + displacement index (List.replicate count 0 ++ strides) = _
          rw [ih, Int.mul_zero, Int.zero_add]
          rfl

private theorem stretchedStrides_of_fits {dims targets : List Nat} {strides : List Int}
    (hfits : List.Forall₂ Shape.Fits dims targets) (hstrides : strides.length = dims.length) :
    ∃ found, stretchedStrides dims strides targets = .ok found ∧
      ∀ index, Shape.Within index targets →
        displacement index found = displacement (Shape.source dims index) strides := by
  induction hfits generalizing strides with
  | nil => exact ⟨[], rfl, fun index _ => by cases index <;> rfl⟩
  | @cons d target ds targets hfirst _ ih =>
      cases strides with
      | nil => cases hstrides
      | cons stride strides =>
          obtain ⟨found, hfound, hsame⟩ := ih (Nat.succ.inj hstrides)
          rw [stretchedStrides, hfound]
          by_cases hkeep : d = target
          · refine ⟨stride :: found, if_pos hkeep, fun index hindex => ?_⟩
            cases index with
            | nil => exact hindex.elim
            | cons i index =>
                have hcoordinate : (if d = 1 then 0 else i) = i := by
                  have hlt := hindex.1
                  split <;> omega
                show _ + displacement index found = Int.ofNat (if d = 1 then 0 else i) * stride + _
                rw [hcoordinate, hsame index hindex.2]
                rfl
          · have hone : d = 1 := hfirst.resolve_left hkeep
            refine ⟨0 :: found, ?_, fun index hindex => ?_⟩
            · rw [if_neg hkeep, if_pos hone]
              rfl
            · cases index with
              | nil => exact hindex.elim
              | cons i index =>
                  show Int.ofNat i * 0 + displacement index found =
                    Int.ofNat (if d = 1 then 0 else i) * stride + _
                  rw [if_pos hone, hsame index hindex.2]
                  simp
                  rfl

private theorem fits_of_stretchedStrides {dims targets : List Nat} {strides found : List Int}
    (hstrides : strides.length = dims.length) (htargets : targets.length = dims.length)
    (h : stretchedStrides dims strides targets = .ok found) :
    List.Forall₂ Shape.Fits dims targets := by
  induction dims generalizing strides targets found with
  | nil =>
      rw [List.length_nil, List.length_eq_zero_iff] at htargets
      rw [htargets]
      exact .nil
  | cons d ds ih =>
      cases strides with
      | nil => cases hstrides
      | cons stride strides =>
          cases targets with
          | nil => cases htargets
          | cons target targets =>
              rw [stretchedStrides] at h
              split at h
              · rename_i hkeep
                obtain ⟨rest, hrest, -⟩ := map_eq_ok h
                exact .cons (.inl hkeep) (ih (Nat.succ.inj hstrides) (Nat.succ.inj htargets) hrest)
              · split at h
                · rename_i hone
                  obtain ⟨rest, hrest, -⟩ := map_eq_ok h
                  exact .cons (.inr hone) (ih (Nat.succ.inj hstrides) (Nat.succ.inj htargets) hrest)
                · cases h

/-- A view is stretched to a shape whose sizes its axes are brought to. -/
theorem stretchTo_of_fits {t : Tensor α} {target : List Nat}
    (hrank : t.shape.length ≤ target.length)
    (hfits : List.Forall₂ Shape.Fits t.shape (target.drop (target.length - t.shape.length))) :
    ∃ u, t.stretchTo target = .ok u ∧ u.shape = target ∧
      ∀ index, Shape.Within index target → u.element? index =
        t.element? (Shape.source t.shape (index.drop (target.length - t.shape.length))) := by
  obtain ⟨found, hfound, hsame⟩ := stretchedStrides_of_fits hfits t.strided
  by_cases hshape : t.shape = target
  · refine ⟨t, stretchTo_of_shape hshape, hshape, fun index hindex => ?_⟩
    rw [hshape, Nat.sub_self, List.drop_zero, Shape.source_self hindex]
  · refine ⟨_, stretchTo_of_strides hshape hrank hfound, rfl, fun index hindex => ?_⟩
    have hdrop := Shape.within_drop hindex (target.length - t.shape.length)
    simp only [element?, place]
    rw [displacement_replicate_zero, ← hsame _ hdrop]
    rfl

theorem rank_le_of_stretchTo {t u : Tensor α} {target : List Nat} (h : t.stretchTo target = .ok u) :
    t.shape.length ≤ target.length := by
  by_cases hshape : t.shape = target
  · rw [hshape]
  · rw [stretchTo, if_neg hshape] at h
    split at h
    · cases h
    · exact Nat.not_lt.1 ‹_›

theorem fits_of_stretchTo {t u : Tensor α} {target : List Nat}
    (hrank : t.shape.length ≤ target.length) (h : t.stretchTo target = .ok u) :
    List.Forall₂ Shape.Fits t.shape (target.drop (target.length - t.shape.length)) := by
  by_cases hshape : t.shape = target
  · rw [hshape, Nat.sub_self, List.drop_zero]
    exact List.forall₂_same.2 fun _ _ => .inl rfl
  · obtain ⟨found, hfound⟩ := strides_of_stretchTo hshape h
    refine fits_of_stretchedStrides t.strided ?_ hfound
    rw [List.length_drop]
    exact Nat.sub_sub_self hrank

/-! ## Two operands -/

variable [Scalar α]

/-- What is read of an operand at a multi-index of the common shape, in a number of axes that no
operand exceeds. -/
def readAt (t : Tensor α) (rank : Nat) (index : List Nat) : α :=
  (t.element? ((Shape.source (Shape.padded rank t.shape) index).drop
    (rank - t.shape.length))).getD Scalar.missing

private theorem exists_stretched {t : Tensor α} {rank : Nat} {target : List Nat}
    (hrank : t.shape.length ≤ target.length) (htarget : target.length ≤ rank)
    (hfits : List.Forall₂ Shape.Fits (Shape.padded rank t.shape) (Shape.padded rank target)) :
    ∃ u, t.stretchTo target = .ok u ∧
      ∀ index, Shape.Within index (Shape.padded rank target) →
        u.entry (Shape.distance (index.drop (rank - target.length)) (Shape.strides target)) =
          t.readAt rank index := by
  obtain ⟨u, hu, rfl, hread⟩ :=
    stretchTo_of_fits hrank ((Shape.fits_padded_iff hrank htarget).1 hfits)
  refine ⟨u, hu, fun index hindex => ?_⟩
  have hwithin : Shape.Within (index.drop (rank - u.shape.length)) u.shape := by
    have hdrop := Shape.within_drop hindex (rank - u.shape.length)
    rwa [Shape.drop_padded] at hdrop
  have hsplit : rank - t.shape.length =
      (rank - u.shape.length) + (u.shape.length - t.shape.length) := by omega
  rw [entry_distance hwithin, hread _ hwithin, readAt, Shape.drop_source_padded, hsplit,
    List.drop_drop]

variable {f : α → α → α} {a b c : Tensor α} {rank : Nat}

/-- Whether a tensor combines two operands element by element, the elements that are read along
repeated axes included. -/
structure Combines (f : α → α → α) (rank : Nat) (a b c : Tensor α) : Prop where
  dtype : c.dtype = a.dtype
  length : c.shape.length = max a.shape.length b.shape.length
  shape : Shape.padded rank c.shape =
    List.zipWith max (Shape.padded rank a.shape) (Shape.padded rank b.shape)
  element : ∀ index, Shape.Within index (Shape.padded rank c.shape) →
    c.element? (index.drop (rank - c.shape.length)) =
      some (f (a.readAt rank index) (b.readAt rank index))

/-- Two operands whose axes go together are combined. -/
theorem zipWith_eq_ok (f : α → α → α) (ha : a.shape.length ≤ rank) (hb : b.shape.length ≤ rank)
    (h : List.Forall₂ Shape.Joins (Shape.padded rank a.shape) (Shape.padded rank b.shape)) :
    ∃ c, zipWith f a b = .ok c ∧ Combines f rank a b c := by
  obtain ⟨shape, hshape⟩ := Shape.exists_broadcast? ha hb h
  obtain ⟨hlength, hsizes⟩ := Shape.broadcast?_eq_some ha hb hshape
  have hrank : shape.length ≤ rank := by omega
  have hfits := (Shape.forall₂_joins_iff
    ((Shape.length_padded ha).trans (Shape.length_padded hb).symm)).1 h
  rw [← hsizes] at hfits
  obtain ⟨left, hleft, hreadLeft⟩ := exists_stretched (by omega) hrank hfits.1
  obtain ⟨right, hright, hreadRight⟩ := exists_stretched (by omega) hrank hfits.2
  refine ⟨packed a.dtype shape ((Array.range (Shape.size shape)).map fun i =>
    f (left.entry i) (right.entry i)), ?_, ⟨rfl, hlength, hsizes, fun index hindex => ?_⟩⟩
  · simp only [zipWith, hshape, hleft, hright, bind, Except.bind]
    rfl
  · have hwithin : Shape.Within (index.drop (rank - shape.length)) shape := by
      have hdrop := Shape.within_drop hindex (rank - shape.length)
      rwa [packed, Shape.drop_padded] at hdrop
    refine (element?_packed_range hwithin _).trans ?_
    rw [hreadLeft index hindex, hreadRight index hindex]

/-- Operands that are combined have axes that go together. -/
theorem joins_of_zipWith (ha : a.shape.length ≤ rank) (hb : b.shape.length ≤ rank)
    (h : zipWith f a b = .ok c) :
    List.Forall₂ Shape.Joins (Shape.padded rank a.shape) (Shape.padded rank b.shape) := by
  have hshape := shape_zipWith h
  obtain ⟨hlength, hsizes⟩ := Shape.broadcast?_eq_some ha hb hshape
  have hrank : c.shape.length ≤ rank := by omega
  rw [Shape.forall₂_joins_iff ((Shape.length_padded ha).trans (Shape.length_padded hb).symm),
    ← hsizes, Shape.fits_padded_iff (by omega) hrank, Shape.fits_padded_iff (by omega) hrank]
  simp only [zipWith, hshape] at h
  cases hleft : a.stretchTo c.shape with
  | error e =>
      rw [hleft] at h
      cases h
  | ok left =>
      cases hright : b.stretchTo c.shape with
      | error e =>
          rw [hleft, hright] at h
          cases h
      | ok right =>
          exact ⟨fits_of_stretchTo (by omega) hleft, fits_of_stretchTo (by omega) hright⟩

/-! ## Results that are constructed -/

/-- The elements of two tensors combined by a function, as far as the result is constructed. -/
def zipConstructed (f : α → α → α) (a b : Tensor α) : Except Failure (Tensor α) := do
  (← zipWith f a b).constructed

theorem zipWith_of_zipConstructed (h : zipConstructed f a b = .ok c) : zipWith f a b = .ok c := by
  obtain ⟨d, hd, h⟩ := bind_eq_ok h
  rwa [← eq_of_constructed h]

theorem zipConstructed_eq_ok (h : zipWith f a b = .ok c) (hroomy : Shape.Roomy c.shape) :
    zipConstructed f a b = .ok c := by
  rw [zipConstructed, h]
  exact (filled_zipWith h).constructed hroomy

section Folds

variable {as bs : List (Tensor α)}

theorem foldlM_zipWith_of_zipConstructed (h : as.foldlM (zipConstructed f) a = .ok c) :
    as.foldlM (zipWith f) a = .ok c := by
  induction as generalizing a with
  | nil => exact h
  | cons b as ih =>
      rw [List.foldlM_cons] at h ⊢
      obtain ⟨d, hd, h⟩ := bind_eq_ok h
      rw [zipWith_of_zipConstructed hd]
      exact ih h

/-- What is combined step by step is constructed at every step if the sizes at the end are roomy: along
each axis they are the largest. -/
theorem foldlM_zipConstructed (h : as.foldlM (zipWith f) a = .ok c) (hroomy : Shape.Roomy c.shape) :
    as.foldlM (zipConstructed f) a = .ok c ∧ Shape.Roomy a.shape := by
  induction as generalizing a with
  | nil =>
      obtain rfl : a = c := Except.ok.inj h
      exact ⟨rfl, hroomy⟩
  | cons b as ih =>
      rw [List.foldlM_cons] at h ⊢
      obtain ⟨d, hd, h⟩ := bind_eq_ok h
      obtain ⟨hlater, hfirst⟩ := ih h
      rw [zipConstructed_eq_ok hd hfirst]
      exact ⟨hlater, .of_broadcast? (shape_zipWith hd) hfirst⟩

/-- Where sizes are roomy at the end, what is combined step by step is constructed together. -/
theorem together_zipConstructed {R : Tensor α → Tensor α → Prop}
    (h : Together R (as.foldlM (zipWith f) a) (bs.foldlM (zipWith f) b))
    (hroomy : ∀ c, as.foldlM (zipWith f) a = .ok c → Shape.Roomy c.shape)
    (hshapes : ∀ c d, R c d → (Shape.Roomy c.shape ↔ Shape.Roomy d.shape)) :
    Together R (as.foldlM (zipConstructed f) a) (bs.foldlM (zipConstructed f) b) := by
  generalize hc : as.foldlM (zipWith f) a = x at h hroomy
  generalize hd : bs.foldlM (zipWith f) b = y at h
  cases h with
  | ok hcd =>
      have hroom := hroomy _ rfl
      rw [(foldlM_zipConstructed hc hroom).1, (foldlM_zipConstructed hd ((hshapes _ _ hcd).1 hroom)).1]
      exact .ok hcd
  | error e e' =>
      have herror {as : List (Tensor α)} {a : Tensor α} {e : Failure}
          (h : as.foldlM (zipWith f) a = .error e) :
          ∃ e', as.foldlM (zipConstructed f) a = .error e' := by
        cases hfold : as.foldlM (zipConstructed f) a with
        | error e' => exact ⟨e', rfl⟩
        | ok c => cases h.symm.trans (foldlM_zipWith_of_zipConstructed hfold)
      obtain ⟨_, hleft⟩ := herror hc
      obtain ⟨_, hright⟩ := herror hd
      rw [hleft, hright]
      exact .error _ _

end Folds

/-! ## Aligned operands -/

/-- What is read of aligned operands is the same, at a multi-index and at the transposed one. -/
theorem Aligned.readAt_eq {p index dims : List Nat} (hp : IsPermutation p) (h : Aligned p a b)
    (hfits : List.Forall₂ Shape.Fits b.shape dims) (hindex : Shape.Within index dims) :
    a.readAt p.length (arrange index p) = b.readAt p.length index := by
  have hlength : b.shape.length = index.length := by
    rw [hindex.length_eq, hfits.length_eq]
  have hsource : Shape.source (arrange b.shape p) (arrange index p) =
      arrange (Shape.source b.shape index) p :=
    zipWith_arrange _ (h.rank ▸ hp.2) hlength
  rw [readAt, readAt, h.shape, hsource, h.element _ (Shape.within_source hfits hindex),
    Shape.padded_of_length h.rank.symm, ← h.rank, Nat.sub_self, List.drop_zero]

omit [Scalar α] in
/-- Axes of aligned operands go together on both sides. -/
theorem Aligned.joins_iff {p : List Nat} {a' b' : Tensor α} (hp : IsPermutation p)
    (h : Aligned p a b) (h' : Aligned p a' b') :
    List.Forall₂ Shape.Joins (Shape.padded p.length a.shape) (Shape.padded p.length a'.shape) ↔
      List.Forall₂ Shape.Joins b.shape b'.shape := by
  rw [h.shape, h'.shape, forall₂_arrange_iff hp h.rank h'.rank]

/-- What combines aligned operands is aligned. -/
theorem Aligned.combines {p : List Nat} {a' b' d : Tensor α} {f : α → α → α} (hp : IsPermutation p)
    (h : Aligned p a b) (h' : Aligned p a' b') (hjoins : List.Forall₂ Shape.Joins b.shape b'.shape)
    (hc : Combines f p.length a a' c) (hd : Combines f p.length b b' d) : Aligned p c d := by
  have hrank : p.length = d.shape.length := by rw [hd.length, ← h.rank, ← h'.rank, Nat.max_self]
  have hsame : Shape.padded p.length d.shape = d.shape := Shape.padded_of_length hrank.symm
  have hsizes : d.shape = List.zipWith max b.shape b'.shape := by
    rw [← hsame, hd.shape, Shape.padded_of_length h.rank.symm, Shape.padded_of_length h'.rank.symm]
  have hshape : Shape.padded p.length c.shape = arrange d.shape p := by
    rw [hc.shape, h.shape, h'.shape, hsizes,
      zipWith_arrange _ (h.rank ▸ hp.2) (h.rank.symm.trans h'.rank)]
  have hfits := (Shape.forall₂_joins_iff (h.rank.symm.trans h'.rank)).1 hjoins
  rw [← hsizes] at hfits
  refine ⟨?_, hrank, ?_, hshape, fun index hindex => ?_⟩
  · rw [hc.length]
    exact Nat.max_le.2 ⟨h.rank_le, h'.rank_le⟩
  · rw [hc.dtype, hd.dtype, h.dtype]
  · have hlength : p.length = index.length := hrank.trans hindex.length_eq.symm
    have hmoved : Shape.Within (arrange index p) (Shape.padded p.length c.shape) := by
      rw [hshape]
      exact (Shape.within_arrange_iff hp hlength hrank).2 hindex
    have hread := hd.element index (hsame.symm ▸ hindex)
    rw [← hrank, Nat.sub_self, List.drop_zero] at hread
    rw [hc.element _ hmoved, hread, h.readAt_eq hp hfits.1 hindex, h'.readAt_eq hp hfits.2 hindex]

/-- Aligned operands are combined together, and to aligned results. -/
theorem Aligned.zipWith {p : List Nat} {a' b' : Tensor α} (f : α → α → α) (hp : IsPermutation p)
    (h : Aligned p a b) (h' : Aligned p a' b') :
    Together (fun c d => Aligned p c d ∧ c.shape.length = max a.shape.length a'.shape.length)
      (zipWith f a a') (zipWith f b b') := by
  have hrank : b.shape.length ≤ p.length := Nat.le_of_eq h.rank.symm
  have hrank' : b'.shape.length ≤ p.length := Nat.le_of_eq h'.rank.symm
  have hpadded : List.Forall₂ Shape.Joins (Shape.padded p.length b.shape)
      (Shape.padded p.length b'.shape) ↔ List.Forall₂ Shape.Joins b.shape b'.shape := by
    rw [Shape.padded_of_length h.rank.symm, Shape.padded_of_length h'.rank.symm]
  by_cases hjoins : List.Forall₂ Shape.Joins b.shape b'.shape
  · obtain ⟨c, hc, hcombines⟩ := zipWith_eq_ok f h.rank_le h'.rank_le
      ((h.joins_iff hp h').2 hjoins)
    obtain ⟨d, hd, hcombines'⟩ := zipWith_eq_ok f hrank hrank'
      (hpadded.2 hjoins)
    rw [hc, hd]
    exact .ok ⟨h.combines hp h' hjoins hcombines hcombines', hcombines.length⟩
  · cases hc : Tensor.zipWith f a a' with
    | ok c =>
        have hall := joins_of_zipWith h.rank_le h'.rank_le hc
        exact absurd ((h.joins_iff hp h').1 hall) hjoins
    | error e =>
        cases hd : Tensor.zipWith f b b' with
        | ok d => exact absurd (hpadded.1 (joins_of_zipWith hrank hrank' hd)) hjoins
        | error e' => exact .error e e'

/-- Any number of aligned operands is combined from the left together, and to aligned results, which
lack no axes if one of the operands does not. -/
theorem Aligned.foldlM_zipWith {p : List Nat} (f : α → α → α) (hp : IsPermutation p)
    {as bs : List (Tensor α)} (hall : List.Forall₂ (Aligned p) as bs) (h : Aligned p a b) :
    Together (fun c d => Aligned p c d ∧ ∀ x ∈ a :: as, x.shape.length ≤ c.shape.length)
      (as.foldlM (Tensor.zipWith f) a) (bs.foldlM (Tensor.zipWith f) b) := by
  induction hall generalizing a b with
  | nil => exact .ok ⟨h, by simp⟩
  | @cons a' b' as bs hfirst _ ih =>
      rw [List.foldlM_cons, List.foldlM_cons]
      refine (h.zipWith f hp hfirst).bind fun c d hcd => (ih hcd.1).imp fun x y hxy => ⟨hxy.1, ?_⟩
      obtain ⟨hgrown, hlater⟩ := List.forall_mem_cons.1 hxy.2
      rw [hcd.2] at hgrown
      refine List.forall_mem_cons.2 ⟨?_, List.forall_mem_cons.2 ⟨?_, hlater⟩⟩
      · exact Nat.le_trans (Nat.le_max_left _ _) hgrown
      · exact Nat.le_trans (Nat.le_max_right _ _) hgrown

end Tensor

/-! ## Combining across a transposition -/

namespace Passed

variable {α : Type} [Scalar α]

/-- Any number of operands, one of which is a tensor of the rank of a transposition, is combined from
the left: behind the transposition this fails exactly if it fails ahead of it, and otherwise the
result behind is the result ahead, transposed. It is so as well if what is combined has to be
constructed at every step, as long as the sizes at the end are roomy. -/
theorem combine_permute (f : α → α → α) {perm : List Number} {p : List Nat} {x : Passed α}
    {xs : List (Passed α)} (hp : ofNumbers? perm = some p) (hsuits : ∀ y ∈ x :: xs, y.Suits p.length)
    (htensor : ∃ t, .tensor t ∈ x :: xs) :
    ∃ a as b bs, (x :: xs).mapM (behind perm) = .ok (a :: as) ∧
      (x :: xs).mapM (ahead p) = .ok (b :: bs) ∧
      Together (fun c d => ∃ u, d.permute perm = .ok u ∧ c.Same u)
        (as.foldlM (Tensor.zipWith f) a) (bs.foldlM (Tensor.zipWith f) b) ∧
      ((∀ c, as.foldlM (Tensor.zipWith f) a = .ok c → Shape.Roomy c.shape) →
        Together (fun c d => ∃ u, d.permute perm = .ok u ∧ c.Same u)
          (as.foldlM (Tensor.zipConstructed f) a) (bs.foldlM (Tensor.zipConstructed f) b)) := by
  have hperm := ofNumbers?_isPermutation hp
  obtain ⟨as, bs, has, hbs, hall, hfull, -⟩ := forall₂_aligned hp hsuits
  obtain ⟨t, ht⟩ := htensor
  obtain ⟨whole, hwhole, hrank⟩ := hfull t ht
  cases hall with
  | nil => cases hwhole
  | @cons a b as bs hfirst hrest =>
      have htransposes : Together (fun c d => c.TransposeOf p d)
          (as.foldlM (Tensor.zipWith f) a) (bs.foldlM (Tensor.zipWith f) b) := by
        refine (hfirst.foldlM_zipWith f hperm hrest).imp ?_
        rintro c d ⟨haligned, hgrown⟩
        exact haligned.transposeOf
          (Nat.le_antisymm haligned.rank_le (hrank ▸ hgrown whole hwhole))
      have hsame : ∀ c d : Tensor α, c.TransposeOf p d → ∃ u, d.permute perm = .ok u ∧ c.Same u :=
        fun c d h => ⟨d.permuteBy p, Tensor.permute_eq hp h.rank.symm,
          h.same hperm (Tensor.transposeOf_permuteBy hperm h.rank)⟩
      refine ⟨a, as, b, bs, has, hbs, htransposes.imp hsame, fun hroomy => ?_⟩
      refine (Tensor.together_zipConstructed htransposes hroomy fun c d h => ?_).imp hsame
      rw [h.shape, Shape.Roomy.arrange_iff hperm h.rank]

/-- Two rows of three whole numbers. -/
def rows : Tensor Int := .packed .int64 [2, 3] #[1, 2, 3, 4, 5, 6]

/-- A literal with a number for each of two rows. -/
def offsets : Literal := { dtype := .int64, dims := [.int 2], data := [.int 10, .int 20] }

/-- The rows are read as columns, and the literal along them. -/
theorem combine_permute_rows :
    ofNumbers? [.int 1, .int 0] = some [1, 0] ∧
      (∀ y ∈ [tensor rows, literal offsets], y.Suits 2) ∧
      ∃ a as b bs c d u, [tensor rows, literal offsets].mapM (behind [.int 1, .int 0]) =
          .ok (a :: as) ∧
        [tensor rows, literal offsets].mapM (ahead [1, 0]) = .ok (b :: bs) ∧
        as.foldlM (Tensor.zipConstructed (· + ·)) a = .ok c ∧
        bs.foldlM (Tensor.zipConstructed (· + ·)) b = .ok d ∧
        c.shape = [3, 2] ∧ c.data = #[11, 24, 12, 25, 13, 26] ∧
        d.permute [.int 1, .int 0] = .ok u ∧ c.Same u := by
  have hp : ofNumbers? [.int 1, .int 0] = some [1, 0] := by decide
  have hsuits : ∀ y ∈ [tensor rows, literal offsets], y.Suits 2 := by
    refine List.forall_mem_cons.2 ⟨rfl, List.forall_mem_singleton.2 ⟨by decide, ?_⟩⟩
    exact Literal.turnable_of_small (by decide) (by decide) (by decide)
  obtain ⟨a, as, b, bs, hbehind, hahead, -, hconstructed⟩ :=
    combine_permute (· + ·) hp hsuits ⟨rows, List.mem_cons_self⟩
  obtain ⟨c, hsum, hshape, hdata⟩ : ∃ c, as.foldlM (Tensor.zipWith (· + ·)) a = .ok c ∧
      c.shape = [3, 2] ∧ c.data = #[11, 24, 12, 25, 13, 26] := by
    obtain ⟨rfl, rfl⟩ := List.cons.inj (Except.ok.inj (hbehind.symm.trans rfl))
    exact ⟨_, rfl, rfl, by decide +kernel⟩
  have hroomy : Shape.Roomy c.shape := by
    rw [hshape]
    decide
  have hc := (Tensor.foldlM_zipConstructed hsum hroomy).1
  have htogether := hconstructed fun c' hc' => Except.ok.inj (hsum.symm.trans hc') ▸ hroomy
  rw [hc] at htogether
  generalize hd : bs.foldlM (Tensor.zipConstructed (· + ·)) b = result at htogether
  cases htogether with
  | ok hsame =>
      obtain ⟨u, hu, hsame⟩ := hsame
      exact ⟨hp, hsuits, a, as, b, bs, c, _, u, hbehind, hahead, hc, hd, hshape, hdata, hu, hsame⟩

/-- A tensor without elements. -/
def empty : Tensor Int := .packed .float32 [1, 1, 0] #[]

/-- Behind the transposition the operands are combined, but ahead of it the literal is not turned. -/
theorem not_combine_permute :
    ofNumbers? [.int 0, .int 2, .int 1] = some [0, 2, 1] ∧ (parted (2 ^ 600)).isComplete = true ∧
      empty.rank = 3 ∧
      (∃ a b c, (tensor empty).behind [.int 0, .int 2, .int 1] = .ok a ∧
        (literal (parted (2 ^ 600))).behind [.int 0, .int 2, .int 1] = .ok b ∧
        Tensor.zipWith (· + ·) a b = .ok c) ∧
      (literal (parted (2 ^ 600)) : Passed Int).ahead [0, 2, 1] = .error (.badLength .nan) := by
  have hp : ofNumbers? [.int 0, .int 2, .int 1] = some [0, 2, 1] := by decide
  have hbehind : ∀ n, 0 < n → ∃ a b c,
      (tensor empty).behind [.int 0, .int 2, .int 1] = .ok a ∧
        (literal (parted n)).behind [.int 0, .int 2, .int 1] = .ok b ∧
        Tensor.zipWith (· + ·) a b = .ok c := by
    intro n hn
    obtain ⟨b, hb⟩ := Tensor.exists_ofLiteral (α := Int) (isComplete_parted n)
    have hshape : b.shape = [n, 0, n] := by
      rw [(Tensor.ofLiteral_eq_ok_iff.1 hb).2.2]
      rfl
    have hfirst : Shape.Joins 1 n := ⟨.inr rfl, .inl (Nat.max_eq_right hn).symm⟩
    have hall : List.Forall₂ Shape.Joins (Shape.padded 3 (empty.permuteBy [0, 2, 1]).shape)
        (Shape.padded 3 b.shape) := by
      rw [hshape]
      exact .cons hfirst (.cons ⟨.inl rfl, .inl rfl⟩ (.cons hfirst .nil))
    have hrank : (empty.permuteBy [0, 2, 1]).shape.length ≤ 3 := Nat.le_refl 3
    have hrank' : b.shape.length ≤ 3 := by rw [hshape]; exact Nat.le_refl 3
    obtain ⟨c, hc, -⟩ := Tensor.zipWith_eq_ok (· + ·) hrank hrank' hall
    exact ⟨_, _, c, Tensor.permute_eq hp rfl, hb, hc⟩
  have hpos : ∀ k, 0 < 2 ^ k := fun k => Nat.two_pow_pos k
  exact ⟨hp, isComplete_parted _, rfl, hbehind _ (hpos 600), ahead_parted⟩

end Passed

end TensorGraph
