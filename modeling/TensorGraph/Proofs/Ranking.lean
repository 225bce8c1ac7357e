import Mathlib.Data.Prod.Lex
import Mathlib.Order.OrderIsoNat
import TensorGraph.Proofs.Steps
import TensorGraph.Proofs.Totals

/-!
# Rewrites come to an end

The rank of a tree is its weight, and among trees of one weight the number of nodes. A rule for
transpositions makes the tree lighter, although it may add nodes; every other rewrite takes nodes
away and makes nothing heavier. So each rewrite lowers the rank, and as ranks are well-founded there
is no infinite sequence of rewrites.

The weight needs to be told how many nodes may take part in moves. There are never more of them in
the tree than there were at the beginning.

## Main results

* `Rewriting.Run.descends` -- a run with a rewrite in it lowers the rank of a tree.
-/

namespace TensorGraph

namespace Graph

/-- How many nodes of a tree take part in moves. -/
noncomputable def movables : Graph → Nat := total fun g => g.movable.card

/-- The weight of a tree, where no more than `k` nodes take part in moves, and then its size. -/
noncomputable def rank (k : Nat) (g : Graph) : ℕ ×ₗ ℕ :=
  toLex (g.total (weight k), g.total fun g => g.nodes.length)

variable {g h : Graph} {k : Nat} {f : Graph → Nat}

theorem card_movable_le_movables (g : Graph) : g.movable.card ≤ g.movables := by
  rw [movables, total_eq]
  exact Nat.le_add_right _ _

theorem rank_lt_iff : h.rank k < g.rank k ↔
    h.total (weight k) < g.total (weight k) ∨ h.total (weight k) = g.total (weight k) ∧
      h.total (fun g => g.nodes.length) < g.total fun g => g.nodes.length :=
  Prod.Lex.toLex_lt_toLex

/-! ## Bodies and sorting -/

theorem mirrors_putBody {place : Nat} {key : String} {new : Graph} :
    Mirrors g (g.putBody place key new) ∧ Mirrors (g.putBody place key new) g := by
  cases hn : g.nodes[place]? with
  | none =>
      have hsame : g.putBody place key new = g := by simp [putBody, hn]
      rw [hsame]
      exact ⟨fun k hk => ⟨k, hk, rfl, rfl, rfl, fun _ _ => id⟩,
        fun k hk => ⟨k, hk, rfl, rfl, rfl, fun _ _ => id⟩⟩
  | some n =>
      constructor
      · intro k hk
        rcases (mem_nodes_putBody hn).1 hk with rfl | ⟨j, -, hj⟩
        · exact ⟨n, List.mem_of_getElem? hn, rfl, rfl, rfl, fun _ _ => id⟩
        · exact ⟨k, List.mem_of_getElem? hj, rfl, rfl, rfl, fun _ _ => id⟩
      · intro k hk
        rcases eq_or_elsewhere hn hk with rfl | hother
        · exact ⟨_, (mem_nodes_putBody hn).2 (.inl rfl), rfl, rfl, rfl, fun _ _ => id⟩
        · exact ⟨k, (mem_nodes_putBody hn).2 (.inr hother), rfl, rfl, rfl, fun _ _ => id⟩

/-- With another body in its place, a tree has what that body has more. -/
theorem HasBody.total_putBody {place : Nat} {key : String} {old : Graph}
    (hbody : g.HasBody place key old) (hkeyed : ∀ n ∈ g.nodes, n.Keyed) (hf : Inward f) (new : Graph) :
    (g.putBody place key new).total f + old.total f = g.total f + new.total f := by
  obtain ⟨n, hn, hold⟩ := hbody
  have hlength : (g.putBody place key new).nodes.length = g.nodes.length := by
    rw [putBody_eq hn, putNode, List.length_set]
  have hroot : f (g.putBody place key new) = f g :=
    hf _ _ mirrors_putBody.1 mirrors_putBody.2 hlength
  have hset := sum_set (Node.beneath f) hn (n.rebodied key new)
  have hnode : (n.rebodied key new).beneath f + old.total f = n.beneath f + new.total f := by
    obtain ⟨before, after, hbefore, hafter, -⟩ :=
      Node.bodies_rebodied (hkeyed n (List.mem_of_getElem? hn)) hold new
    simp only [Node.beneath, hbefore, hafter, List.map_append, List.map_cons, List.sum_append,
      List.sum_cons]
    omega
  have hbelow : (g.putBody place key new).underneath f =
      ((g.nodes.set place (n.rebodied key new)).map (Node.beneath f)).sum := by
    rw [putBody_eq hn]
    rfl
  rw [total_eq f (g.putBody place key new), total_eq f g, hroot, hbelow, underneath]
  omega

theorem HasBody.total_le {place : Nat} {key : String} {old : Graph}
    (hbody : g.HasBody place key old) : old.total f ≤ g.total f := by
  obtain ⟨n, hn, hold⟩ := hbody
  have hnode : old.total f ≤ n.beneath f :=
    List.single_le_sum (fun _ _ => Nat.zero_le _) _ (List.mem_map_of_mem hold)
  have hgraph : n.beneath f ≤ g.underneath f :=
    List.single_le_sum (fun _ _ => Nat.zero_le _) _ (List.mem_map_of_mem (List.mem_of_getElem? hn))
  rw [total_eq f g]
  omega

theorem total_perm {nodes : List Node} (hperm : nodes.Perm g.nodes) (hf : Inward f) :
    ({ g with nodes } : Graph).total f = g.total f := by
  have hresults : ∀ value, value ∈ ({ g with nodes } : Graph).results → value ∈ g.results := by
    intro value hvalue
    obtain ⟨n, hn, hvalue⟩ := mem_results.1 hvalue
    exact mem_results.2 ⟨n, hperm.mem_iff.1 hn, hvalue⟩
  have hroot : f { g with nodes } = f g :=
    hf _ _ (fun k hk => ⟨k, hperm.mem_iff.1 hk, rfl, rfl, rfl, fun _ _ => id⟩)
      (fun k hk => ⟨k, hperm.mem_iff.2 hk, rfl, rfl, rfl, fun _ _ => id⟩) hperm.length_eq
  rw [total_eq, total_eq, hroot, underneath, underneath, (hperm.map _).sum_eq]

end Graph

namespace Rewriting

open TensorGraph.Graph

variable {s : Surroundings} {g h : Graph} {k : Nat}

/-! ## Edits and rules -/

theorem Edit.underneath_le {kind : Kind} {f : Graph → Nat} (he : Edit s g kind h) (hf : Inward f)
    (hg : TidyIn s g) : h.underneath f ≤ g.underneath f :=
  (he.effect hg.tree.here).underneath_le hf hg.tree hg.covers

theorem Tidying.notHeavier (he : Tidying s g h) (hg : TidyIn s g) : NotHeavier g h := by
  induction he with
  | refl => exact .refl g
  | tail hsteps hstep ih =>
      obtain ⟨kind, hkind, hedit⟩ := hstep
      have hbetween := Tidying.tidyIn hsteps hg
      exact ih.trans ((hedit.effect hbetween.tree.here).notHeavier hkind hbetween.tree.here)

theorem Tidying.underneath_le {f : Graph → Nat} (he : Tidying s g h) (hf : Inward f)
    (hg : TidyIn s g) : h.underneath f ≤ g.underneath f := by
  induction he with
  | refl => exact Nat.le_refl _
  | tail hsteps hstep ih =>
      obtain ⟨kind, -, hedit⟩ := hstep
      exact (hedit.underneath_le hf (Tidying.tidyIn hsteps hg)).trans ih

/-- A rule for transpositions makes a graph lighter. -/
theorem Treated.lighter (ht : Treated s g h) (hg : TidyIn s g) (ha : g.Acyclic) : Lighter g h := by
  obtain ⟨kind, between, hkind, hedit, hrest⟩ := ht.edits
  have hlighter := (hedit.effect hg.tree.here).lighter hkind hg.tree hg.covers ha
  exact hlighter.trans (Tidying.notHeavier hrest (hedit.tidyIn hg))

theorem Treated.underneath_le {f : Graph → Nat} (ht : Treated s g h) (hf : Inward f)
    (hg : TidyIn s g) : h.underneath f ≤ g.underneath f := by
  obtain ⟨kind, between, -, hedit, hrest⟩ := ht.edits
  exact (Tidying.underneath_le hrest hf (hedit.tidyIn hg)).trans (hedit.underneath_le hf hg)

/-- What takes something away leaves fewer nodes. -/
theorem Edit.length_lt {kind : Kind} (he : Edit s g kind h)
    (hkind : kind = .removal ∨ kind = .cleanup) (hg : TidyIn s g) :
    h.nodes.length < g.nodes.length := by
  have herase : ∀ {place : Nat} {n : Node}, g.nodes[place]? = some n → ∀ f : Node → Node,
      ((g.nodes.map f).eraseIdx place).length < g.nodes.length := by
    intro place n hn f
    have hlt := (List.getElem?_eq_some_iff.1 hn).1
    rw [List.length_eraseIdx_of_lt (by simpa using hlt), List.length_map]
    omega
  cases he.effect hg.tree.here with
  | bypassed reason result =>
      rw [result.nodes]
      exact herase result.node _
  | promoted reason result =>
      obtain ⟨before, -, hnodes⟩ := result.nodes
      rw [hnodes]
      exact herase result.node _
  | replaced reason => rcases hkind with rfl | rfl <;> cases reason
  | gathered => exact absurd hkind (by decide)
  | relocated => exact absurd hkind (by decide)
  | removed result =>
      obtain ⟨n, hn, -, rfl⟩ := removeUnreferenced?_eq_some result
      simpa [dropNode] using herase hn id

/-! ## Steps and runs -/

/-- A rewrite lowers the rank of the tree below the graph that it is applied to. -/
theorem Rewrite.descends (hr : Rewrite s g h) (hg : TidyIn s g) (hk : g.movables ≤ k) :
    h.movables ≤ g.movables ∧ h.rank k < g.rank k := by
  have hk := g.card_movable_le_movables.trans hk
  rw [rank_lt_iff]
  unfold movables
  simp only [total_eq]
  rcases hr.edits hg with ⟨ha, ht⟩ | ⟨kind, hkind, hedit⟩
  · have hlighter := ht.lighter hg ha
    have hmovable := Finset.card_le_card hlighter.movable
    have hmovables := ht.underneath_le inward_movable hg
    have hweight := hlighter.weight_lt hk
    have hweights := ht.underneath_le (inward_weight k) hg
    omega
  · have hnot := (hedit.effect hg.tree.here).notHeavier (by rintro rfl; simp at hkind) hg.tree.here
    have hmovable := Finset.card_le_card hnot.movable
    have hmovables := hedit.underneath_le inward_movable hg
    have hweight := hnot.weight_le k
    have hweights := hedit.underneath_le (inward_weight k) hg
    have hlength := hedit.length_lt hkind hg
    have hlengths := hedit.underneath_le inward_length hg
    omega

/-- And so it lowers the rank of every tree around that graph. -/
theorem Within.descends (hw : Within Rewrite s g h) (hg : TidyIn s g) (hk : g.movables ≤ k) :
    h.movables ≤ g.movables ∧ h.rank k < g.rank k := by
  induction hw with
  | here step => exact step.descends hg hk
  | @inside s g place key old new body shown step ih =>
      obtain ⟨hmovables, hrank⟩ := ih (tidyIn_shown hg body) (body.total_le.trans hk)
      have hkeyed := hg.tree.here.keyed
      have hall := body.total_putBody hkeyed inward_movable new
      have hweights := body.total_putBody hkeyed (inward_weight k) new
      have hlengths := body.total_putBody hkeyed inward_length new
      rw [rank_lt_iff] at hrank ⊢
      unfold movables at hmovables ⊢
      omega

/-- Sorting leaves the rank as it is. -/
theorem Within.rank_sorted (hw : Within Sorted s g h) (hg : TidyIn s g) (k : Nat) :
    h.movables = g.movables ∧ h.rank k = g.rank k := by
  suffices ∀ f, Inward f → h.total f = g.total f from
    ⟨this _ inward_movable, by rw [rank, rank, this _ (inward_weight k), this _ inward_length]⟩
  intro f hf
  induction hw with
  | here step =>
      obtain ⟨nodes, hperm, rfl⟩ := sortTopologically_ok step
      exact total_perm hperm hf
  | @inside s g place key old new body shown step ih =>
      have hsame := ih (tidyIn_shown hg body)
      have := body.total_putBody hg.tree.here.keyed hf new
      omega

/-- A run with a rewrite in it lowers the rank of a tree. -/
theorem Run.descends {count : Nat} (hr : Run s g count h) (hg : TidyIn s g) (hk : g.movables ≤ k) :
    h.movables ≤ g.movables ∧ h.rank k ≤ g.rank k ∧ (count ≠ 0 → h.rank k < g.rank k) := by
  induction hr with
  | start => exact ⟨Nat.le_refl _, le_refl _, fun h => absurd rfl h⟩
  | rewrite before step ih =>
      obtain ⟨hmovables, hle, -⟩ := ih
      obtain ⟨hmovables', hlt⟩ := step.descends (before.tidyIn hg) (hmovables.trans hk)
      have hlt := lt_of_lt_of_le hlt hle
      exact ⟨hmovables'.trans hmovables, hlt.le, fun _ => hlt⟩
  | sort before step ih =>
      obtain ⟨hmovables, hrank⟩ := step.rank_sorted (before.tidyIn hg) k
      rw [hmovables, hrank]
      exact ih

/-- There is no infinite sequence of runs with a rewrite in each. -/
theorem not_endless_runs (hg : TidyIn s g) :
    ¬ ∃ stages : Nat → Graph, stages 0 = g ∧ ∀ i, Run s (stages i) 1 (stages (i + 1)) := by
  rintro ⟨stages, hstart, hstep⟩
  have hall : ∀ i, TidyIn s (stages i) ∧ (stages i).movables ≤ g.movables := by
    intro i
    induction i with
    | zero => exact ⟨hstart.symm ▸ hg, (congrArg movables hstart).le⟩
    | succ i ih =>
        exact ⟨(hstep i).tidyIn ih.1, ((hstep i).descends ih.1 ih.2).1.trans ih.2⟩
  have hdrop : ∀ i, (stages (i + 1)).rank g.movables < (stages i).rank g.movables := fun i =>
    ((hstep i).descends (hall i).1 (hall i).2).2.2 (by decide)
  exact not_strictAnti_of_wellFoundedLT (fun i => (stages i).rank g.movables)
    (strictAnti_nat_of_succ_lt hdrop)

end Rewriting

end TensorGraph
