import Mathlib.Data.List.Forall2
import Mathlib.Data.List.GetD
import Mathlib.Data.List.Nodup
import TensorGraph.Proofs.Measuring

/-!
# The algebra of permutations

Permutations of one rank form a group: composing is associative, moving nothing is neutral, and every
permutation is undone by its inverse and by no other permutation. Lists are rearranged accordingly,
by two permutations one after the other as by their composition. The operations on lists of numbers
compute just this when the numbers are those of permutations.

## Main results

* `Permutation.compose_assoc`, `Permutation.identity_compose` -- composing is associative, and moving
  nothing is neutral.
* `Permutation.compose_invert`, `Permutation.invert_compose` -- a permutation and its inverse undo each
  other.
* `Permutation.areInverse_iff` -- the test for permutations that undo each other is exact.
* `Permutation.composition_append` -- the composition on a way from those on its parts.
* `Permutation.entriesAt_eq_arrange` -- what is taken from the places that numbers name is rearranged.
-/

namespace TensorGraph.Permutation

/-! ## Composing -/

theorem arrange_arrange {α : Type} [Inhabited α] (xs : List α) (p : List Nat) {q : List Nat}
    (hq : ∀ axis ∈ q, axis < p.length) : arrange (arrange xs p) q = arrange xs (compose p q) := by
  unfold compose arrange
  rw [List.map_map]
  refine List.map_congr_left fun axis haxis => ?_
  simp [hq axis haxis]

theorem compose_assoc (p q : List Nat) {s : List Nat} (hs : ∀ axis ∈ s, axis < q.length) :
    compose (compose p q) s = compose p (compose q s) :=
  arrange_arrange p q hs

theorem identity_compose {rank : Nat} {p : List Nat} (hp : ∀ axis ∈ p, axis < rank) :
    compose (identity rank) p = p := by
  unfold compose arrange
  refine (List.map_congr_left fun axis haxis => ?_).trans (List.map_id p)
  simp [identity, hp axis haxis]

theorem compose_isPermutation {p q : List Nat} (hp : IsPermutation p) (hq : IsPermutation q)
    (hlength : q.length = p.length) : IsPermutation (compose p q) := by
  have hperm : (compose p q).Perm p := arrange_perm hq hlength
  refine ⟨hperm.nodup_iff.2 hp.1, fun axis haxis => ?_⟩
  rw [length_compose, hlength]
  exact hp.2 axis (hperm.mem_iff.1 haxis)

theorem isIdentity_iff {p : List Nat} {rank : Nat} (hp : p.length = rank) :
    isIdentity p = true ↔ p = identity rank := by
  rw [isIdentity, beq_iff_eq, hp]

theorem compose_invert {p : List Nat} (hp : IsPermutation p) :
    compose p (invert p) = identity p.length := by
  unfold compose arrange invert
  rw [List.map_map]
  refine (List.map_congr_left fun axis haxis => ?_).trans (List.map_id _)
  have hmem : axis ∈ p := hp.perm_range.mem_iff.2 haxis
  have hlt := List.idxOf_lt_length_of_mem hmem
  simp [hlt]

theorem invert_compose {p : List Nat} (hp : IsPermutation p) :
    compose (invert p) p = identity p.length := by
  refine List.ext_getElem (by simp) fun i h₁ h₂ => ?_
  have hi : i < p.length := by simpa using h₁
  simp [compose, arrange, invert, identity, hp.2 p[i] (List.getElem_mem hi),
    hp.1.idxOf_getElem i hi]

/-- A permutation is undone by its inverse only. -/
theorem eq_invert_of_compose {p q : List Nat} (hp : IsPermutation p) (hq : IsPermutation q)
    (hlength : q.length = p.length) (h : compose p q = identity p.length) : q = invert p := by
  have hlt : ∀ axis ∈ q, axis < p.length := hlength ▸ hq.2
  calc q = compose (compose (invert p) p) q := by rw [invert_compose hp, identity_compose hlt]
    _ = compose (invert p) (compose p q) := compose_assoc _ _ hlt
    _ = compose (invert p) (identity (invert p).length) := by rw [h, length_invert]
    _ = invert p := compose_identity _

theorem areInverse_iff {p q : List Nat} (hp : IsPermutation p) (hq : IsPermutation q)
    (hlength : q.length = p.length) : areInverse p q = true ↔ q = invert p := by
  have hcomposed : (compose p q).length = p.length := by rw [length_compose, hlength]
  simp only [areInverse, hlength, beq_self_eq_true, isPermutation_iff.2 hp, isPermutation_iff.2 hq,
    Bool.and_self, Bool.true_and, isIdentity_iff hcomposed]
  exact ⟨eq_invert_of_compose hp hq hlength, fun h => h ▸ compose_invert hp⟩

/-! ## Rearranged lists -/

section Arrange

variable {α : Type} [Inhabited α] {p : List Nat}

theorem getElem?_arrange (xs : List α) (p : List Nat) (i : Nat) :
    (arrange xs p)[i]? = p[i]?.map fun axis => xs.getD axis default :=
  List.getElem?_map

theorem getD_arrange (xs : List α) {i : Nat} (hi : i < p.length) (d : α) :
    (arrange xs p).getD i d = xs.getD p[i] default := by
  rw [List.getD_eq_getElem?_getD, getElem?_arrange, List.getElem?_eq_getElem hi]
  rfl

theorem arrange_invert_arrange {xs : List α} (hp : IsPermutation p) (hlength : p.length = xs.length) :
    arrange (arrange xs p) (invert p) = xs := by
  have hinverse := (invert_isPermutation hp).2
  rw [arrange_arrange _ _ (by simpa using hinverse), compose_invert hp, hlength, arrange_identity]

theorem arrange_arrange_invert {xs : List α} (hp : IsPermutation p) (hlength : p.length = xs.length) :
    arrange (arrange xs (invert p)) p = xs := by
  rw [arrange_arrange _ _ (by simpa using hp.2), invert_compose hp, hlength, arrange_identity]

/-- Lists are told apart after they are rearranged. -/
theorem arrange_inj {xs ys : List α} (hp : IsPermutation p) (hxs : p.length = xs.length)
    (hys : p.length = ys.length) : arrange xs p = arrange ys p ↔ xs = ys := by
  refine ⟨fun h => ?_, fun h => h ▸ rfl⟩
  rw [← arrange_invert_arrange hp hxs, h, arrange_invert_arrange hp hys]

theorem arrange_set {xs : List α} (hp : IsPermutation p) (hlength : p.length = xs.length) {i : Nat}
    (hi : i < p.length) (x : α) : (arrange xs p).set i x = arrange (xs.set p[i] x) p := by
  refine List.ext_getElem (by simp) fun j h₁ h₂ => ?_
  have hj : j < p.length := by simpa using h₂
  have hlt : p[j] < xs.length := hlength ▸ hp.2 p[j] (List.getElem_mem hj)
  have hplace : i = j ↔ p[i] = p[j] := (hp.1.getElem_inj_iff).symm
  simp only [List.getElem_set, arrange, List.getElem_map, List.getD_eq_getElem?_getD,
    List.getElem?_set, hplace]
  split <;> simp_all

/-- What is computed from two rearranged lists entry by entry is rearranged likewise. -/
theorem zipWith_arrange {β γ : Type} [Inhabited β] [Inhabited γ] (f : α → β → γ) {xs : List α}
    {ys : List β} (hp : ∀ axis ∈ p, axis < xs.length) (hlength : xs.length = ys.length) :
    List.zipWith f (arrange xs p) (arrange ys p) = arrange (List.zipWith f xs ys) p := by
  unfold arrange
  rw [List.zipWith_map, List.zipWith_self]
  refine List.map_congr_left fun axis haxis => ?_
  have hx := hp axis haxis
  have hy := hlength ▸ hx
  have hlt : axis < (List.zipWith f xs ys).length := by
    rw [List.length_zipWith]
    exact Nat.lt_min.2 ⟨hx, hy⟩
  rw [List.getD_eq_getElem _ _ hlt, List.getD_eq_getElem _ _ hx, List.getD_eq_getElem _ _ hy,
    List.getElem_zipWith]

/-- A relation between the entries of two lists holds after both are rearranged. -/
theorem forall₂_arrange_iff {β : Type} [Inhabited β] {R : α → β → Prop} {xs : List α} {ys : List β}
    (hp : IsPermutation p) (hxs : p.length = xs.length) (hys : p.length = ys.length) :
    List.Forall₂ R (arrange xs p) (arrange ys p) ↔ List.Forall₂ R xs ys := by
  have hentries : List.Forall₂ R (arrange xs p) (arrange ys p) ↔
      ∀ axis < p.length, R (xs.getD axis default) (ys.getD axis default) := by
    unfold arrange
    rw [List.forall₂_map_left_iff, List.forall₂_map_right_iff, List.forall₂_same]
    exact forall_congr' fun axis => by rw [hp.perm_range.mem_iff, List.mem_range]
  rw [hentries, List.forall₂_iff_get]
  simp only [← hxs, ← hys, true_and]
  exact forall_congr' fun axis => ⟨fun h h₁ h₂ => by simpa [← hxs, ← hys, h₁] using h h₁,
    fun h h₁ => by simpa [← hxs, ← hys, h₁] using h h₁ h₁⟩

end Arrange

/-! ## Numbers that form a permutation -/

/-- Results for all entries of a list, entry by entry. -/
theorem mapM_eq_some_iff {α β : Type} {f : α → Option β} {xs : List α} {ys : List β} :
    xs.mapM f = some ys ↔ List.Forall₂ (fun x y => f x = some y) xs ys := by
  induction xs generalizing ys with
  | nil => simp [eq_comm]
  | cons x xs ih =>
      simp only [List.mapM_cons, Option.pure_def, Option.bind_eq_bind, Option.bind_eq_some_iff,
        Option.some.injEq, List.forall₂_cons_left_iff, ih]
      constructor
      · rintro ⟨y, hy, rest, hrest, rfl⟩
        exact ⟨y, rest, hy, hrest, rfl⟩
      · rintro ⟨y, rest, hy, hrest, rfl⟩
        exact ⟨y, hy, rest, hrest, rfl⟩

theorem ofNumbers?_eq_some_iff {xs : List Number} {p : List Nat} :
    ofNumbers? xs = some p ↔ xs.mapM Number.toNat? = some p ∧ IsPermutation p := by
  unfold ofNumbers?
  cases xs.mapM Number.toNat? with
  | none => simp
  | some q =>
      simp only [isPermutation_iff, Option.some.injEq]
      split
      · rename_i hq
        simp only [Option.some.injEq]
        exact ⟨fun h => ⟨h, h ▸ hq⟩, fun h => h.1⟩
      · rename_i hq
        simp only [reduceCtorEq, false_iff, not_and]
        exact fun h hp => hq (h ▸ hp)

/-- The numbers of a permutation that are rearranged by another one are those of their composition. -/
theorem ofNumbers?_arrange {xs : List Number} {p q : List Nat} (hp : ofNumbers? xs = some p)
    (hq : IsPermutation q) (hlength : q.length = p.length) :
    ofNumbers? (arrange xs q) = some (compose p q) := by
  rw [ofNumbers?_eq_some_iff, mapM_eq_some_iff] at hp ⊢
  refine ⟨?_, compose_isPermutation hp.2 hq hlength⟩
  unfold compose arrange
  rw [List.forall₂_map_left_iff, List.forall₂_map_right_iff, List.forall₂_same]
  intro axis haxis
  have hlt : axis < p.length := hlength ▸ hq.2 axis haxis
  have hlt' : axis < xs.length := hp.1.length_eq ▸ hlt
  have hentry := hp.1.get hlt' hlt
  simpa [hlt, hlt'] using hentry

theorem length_eq_of_ofNumbers? {xs : List Number} {p : List Nat} (h : ofNumbers? xs = some p) :
    xs.length = p.length :=
  (length_of_ofNumbers? h).symm

/-- What is taken from the places that the numbers of a permutation name. -/
theorem entriesAt_eq_arrange {α : Type} [Inhabited α] {places : List Number} {p : List Nat}
    (hp : ofNumbers? places = some p) {xs : List α} (hlength : p.length = xs.length) :
    entriesAt xs places = (arrange xs p).map some := by
  have hlt : ∀ axis ∈ p, axis < xs.length := hlength ▸ (ofNumbers?_isPermutation hp).2
  have hplaces := mapM_eq_some_iff.1 (ofNumbers?_eq_some_iff.1 hp).1
  clear hp hlength
  induction hplaces with
  | nil => rfl
  | cons hread _ ih =>
      obtain ⟨haxis, hrest⟩ := List.forall_mem_cons.1 hlt
      have hfirst := ih hrest
      simp only [entriesAt, arrange] at hfirst
      simp [entriesAt, arrange, hread, haxis, hfirst]

section Numbers

variable {ps qs : List Number} {p q : List Nat}

theorem composeNumbers_eq (hp : ofNumbers? ps = some p) (hq : ofNumbers? qs = some q)
    (hlength : q.length = p.length) :
    composeNumbers ps qs = .ok ((arrange ps q).map some) := by
  have hnumbers : ps.length = qs.length := by
    rw [← length_of_ofNumbers? hp, ← length_of_ofNumbers? hq, hlength]
  simp only [composeNumbers, require, hp, hq, hnumbers, if_true, bind, Except.bind]
  rw [entriesAt_eq_arrange hq (hlength.trans (length_of_ofNumbers? hp))]
  rfl

theorem invertNumbers_eq (hp : ofNumbers? ps = some p) : invertNumbers ps = .ok (invert p) := by
  simp only [invertNumbers, require, hp]
  rfl

theorem areInverseNumbers_iff (hp : ofNumbers? ps = some p) (hq : ofNumbers? qs = some q)
    (hlength : q.length = p.length) : areInverseNumbers ps qs = true ↔ q = invert p := by
  simp only [areInverseNumbers, hp, hq]
  exact areInverse_iff (ofNumbers?_isPermutation hp) (ofNumbers?_isPermutation hq) hlength

theorem permuteShape_eq {α : Type} [Inhabited α] (hp : ofNumbers? ps = some p) {dims : List α}
    (hlength : p.length = dims.length) :
    permuteShape dims ps = .ok ((arrange dims p).map some) := by
  have hnumbers : dims.length = ps.length := hlength.symm.trans (length_of_ofNumbers? hp)
  rw [permuteShape, if_pos hnumbers, entriesAt_eq_arrange hp hlength]

end Numbers

/-! ## Permutations one after the other -/

/-- Whether permutations are permutations of a rank. -/
def OfRank (rank : Nat) (perms : List (List Nat)) : Prop :=
  ∀ p ∈ perms, IsPermutation p ∧ p.length = rank

/-- The one permutation that does what permutations of a rank do one after the other. -/
def composition (rank : Nat) (perms : List (List Nat)) : List Nat :=
  perms.foldl compose (identity rank)

theorem OfRank.append_iff {rank : Nat} {ps qs : List (List Nat)} :
    OfRank rank (ps ++ qs) ↔ OfRank rank ps ∧ OfRank rank qs :=
  List.forall_mem_append

theorem OfRank.lt {rank : Nat} {ps : List (List Nat)} (h : OfRank rank ps) {p : List Nat}
    (hp : p ∈ ps) : ∀ axis ∈ p, axis < rank := by
  obtain ⟨hperm, rfl⟩ := h p hp
  exact hperm.2

private theorem foldl_compose {rank : Nat} {start : List Nat} {ps : List (List Nat)}
    (hstart : IsPermutation start ∧ start.length = rank) (hps : OfRank rank ps) :
    (IsPermutation (ps.foldl compose start) ∧ (ps.foldl compose start).length = rank) ∧
      ps.foldl compose start = compose start (composition rank ps) := by
  unfold composition
  induction ps generalizing start with
  | nil => exact ⟨hstart, by rw [List.foldl_nil, List.foldl_nil, ← hstart.2, compose_identity]⟩
  | cons p ps ih =>
      obtain ⟨hp, hrest⟩ := List.forall_mem_cons.1 hps
      have hnext : IsPermutation (compose start p) ∧ (compose start p).length = rank :=
        ⟨compose_isPermutation hstart.1 hp.1 (hp.2.trans hstart.2.symm), by simp [hp.2]⟩
      obtain ⟨hrank, heq⟩ := ih hnext hrest
      obtain ⟨⟨hrest', hlength⟩, heq'⟩ := ih hp hrest
      have hbound : ∀ axis ∈ ps.foldl compose (identity rank), axis < p.length := by
        have hstart' := (ih ⟨identity_isPermutation rank, length_identity rank⟩ hrest).1
        rw [hp.2]
        intro axis haxis
        exact Nat.lt_of_lt_of_eq (hstart'.1.2 axis haxis) hstart'.2
      refine ⟨hrank, ?_⟩
      rw [List.foldl_cons, List.foldl_cons, heq, identity_compose (hps.lt List.mem_cons_self), heq',
        compose_assoc start p hbound]

section Composition

variable {rank : Nat} {ps qs : List (List Nat)}

theorem composition_ofRank (hps : OfRank rank ps) :
    IsPermutation (composition rank ps) ∧ (composition rank ps).length = rank :=
  (foldl_compose ⟨identity_isPermutation rank, length_identity rank⟩ hps).1

/-- The composition on a way from those on its parts. -/
theorem composition_append (hps : OfRank rank ps) (hqs : OfRank rank qs) :
    composition rank (ps ++ qs) = compose (composition rank ps) (composition rank qs) := by
  rw [composition, List.foldl_append]
  exact (foldl_compose (composition_ofRank hps) hqs).2

theorem composition_singleton {p : List Nat} (hp : OfRank rank [p]) : composition rank [p] = p :=
  identity_compose (hp.lt List.mem_cons_self)

/-- Part of a way may be replaced by another one that composes to the same. -/
theorem composition_congr {before between between' after : List (List Nat)}
    (hperms : OfRank rank (before ++ (between ++ after))) (hbetween : OfRank rank between')
    (hsame : composition rank between' = composition rank between) :
    composition rank (before ++ (between' ++ after)) =
      composition rank (before ++ (between ++ after)) := by
  obtain ⟨hbefore, hrest⟩ := OfRank.append_iff.1 hperms
  obtain ⟨hold, hafter⟩ := OfRank.append_iff.1 hrest
  rw [composition_append hbefore (OfRank.append_iff.2 ⟨hbetween, hafter⟩),
    composition_append hbetween hafter, hsame, ← composition_append hold hafter,
    ← composition_append hbefore hrest]

theorem composition_pair {p q : List Nat} (hp : OfRank rank [p]) :
    composition rank [p, q] = compose p q := by
  rw [composition, List.foldl_cons, identity_compose (hp.lt List.mem_cons_self)]
  rfl

end Composition

end TensorGraph.Permutation
