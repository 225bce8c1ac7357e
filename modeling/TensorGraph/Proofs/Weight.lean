import Mathlib.Data.Finset.Card
import Mathlib.Data.Finset.Prod
import Mathlib.Logic.Relation
import Mathlib.Tactic.GCongr
import Mathlib.Tactic.Linarith
import Mathlib.Tactic.Ring
import TensorGraph.Proofs.Effects

/-!
# The weight of a graph

Moving transpositions comes to an end because each move makes a graph lighter. What counts, in
this order, is the number of transpositions, of pairs of a transposition and an operator behind it
that may let it through, and of pairs of transpositions one behind the other. One node is behind
another when values lead there through nothing but such operators and transpositions.

Only names count, so the weight does not depend on the order of the nodes.

## Main results

* `Graph.Lighter.weight_lt`, `Graph.NotHeavier.weight_le` -- the three numbers as one.
* `Graph.weight_lt_budget` -- a graph is lighter than the number of moves that it is given.
-/

namespace TensorGraph

/-- Whether an operator is a transposition or may let one through. -/
def IsMovable (op : String) : Prop := op = "Transpose" ∨ Capability.isTransparent op = true

namespace Graph

/-- The names of the nodes with one of some operators. -/
def namesOf (g : Graph) (ops : String → Bool) : Finset String :=
  ((g.nodes.filter fun n => ops n.op).map Node.name).toFinset

/-- The names of transpositions. -/
def transposing (g : Graph) : Finset String := g.namesOf fun op => op == "Transpose"

/-- The names of operators that may let a transposition through. -/
def passing (g : Graph) : Finset String := g.namesOf Capability.isTransparent

/-- The names of nodes that take part in moves. -/
def movable (g : Graph) : Finset String := g.transposing ∪ g.passing

/-- A node reads what another one yields, and both may take part in moves. -/
def Feeds (g : Graph) (a b : String) : Prop :=
  ∃ m ∈ g.nodes, ∃ n ∈ g.nodes, (m.name = a ∧ IsMovable m.op) ∧ (n.name = b ∧ IsMovable n.op) ∧
    ∃ value ∈ m.results, value ∈ n.inputs

/-- One node is behind another. -/
abbrev Leads (g : Graph) : String → String → Prop := Relation.TransGen g.Feeds

open Classical in
/-- The pairs of a transposition and an operator behind it. -/
noncomputable def crossings (g : Graph) : Finset (String × String) :=
  (g.transposing ×ˢ g.passing).filter fun pair => g.Leads pair.1 pair.2

open Classical in
/-- The pairs of a transposition and one behind it. -/
noncomputable def chains (g : Graph) : Finset (String × String) :=
  (g.transposing ×ˢ g.transposing).filter fun pair => g.Leads pair.1 pair.2

theorem mem_namesOf {g : Graph} {ops : String → Bool} {name : String} :
    name ∈ g.namesOf ops ↔ ∃ n ∈ g.nodes, ops n.op = true ∧ n.name = name := by
  simp [namesOf, and_assoc]

theorem mem_transposing {g : Graph} {name : String} :
    name ∈ g.transposing ↔ ∃ n ∈ g.nodes, n.op = "Transpose" ∧ n.name = name := by
  simp [transposing, mem_namesOf]

theorem mem_passing {g : Graph} {name : String} :
    name ∈ g.passing ↔ ∃ n ∈ g.nodes, Capability.isTransparent n.op = true ∧ n.name = name :=
  mem_namesOf

theorem mem_movable {g : Graph} {name : String} :
    name ∈ g.movable ↔ ∃ n ∈ g.nodes, IsMovable n.op ∧ n.name = name := by
  rw [movable, Finset.mem_union, mem_transposing, mem_passing]
  constructor
  · rintro (⟨n, hn, hop, hname⟩ | ⟨n, hn, hop, hname⟩)
    · exact ⟨n, hn, .inl hop, hname⟩
    · exact ⟨n, hn, .inr hop, hname⟩
  · rintro ⟨n, hn, hop | hop, hname⟩
    · exact .inl ⟨n, hn, hop, hname⟩
    · exact .inr ⟨n, hn, hop, hname⟩

theorem mem_crossings {g : Graph} {a b : String} :
    (a, b) ∈ g.crossings ↔ a ∈ g.transposing ∧ b ∈ g.passing ∧ g.Leads a b := by
  simp [crossings, and_assoc]

theorem mem_chains {g : Graph} {a b : String} :
    (a, b) ∈ g.chains ↔ a ∈ g.transposing ∧ b ∈ g.transposing ∧ g.Leads a b := by
  simp [chains, and_assoc]

/-! ## Comparing weights -/

/-- Nothing that counts has been added. -/
structure NotHeavier (g h : Graph) : Prop where
  movable : h.movable ⊆ g.movable
  transposing : h.transposing ⊆ g.transposing
  crossings : h.crossings ⊆ g.crossings
  chains : h.chains ⊆ g.chains

/-- One of the three numbers has dropped, and none that counts more has grown. -/
structure Lighter (g h : Graph) : Prop where
  movable : h.movable ⊆ g.movable
  transposing : h.transposing ⊆ g.transposing
  drop : h.transposing ⊂ g.transposing ∨ h.crossings ⊂ g.crossings ∨
    h.crossings ⊆ g.crossings ∧ h.chains ⊂ g.chains

/-- The three numbers as one, where no more than `k` nodes take part in moves. -/
noncomputable def weight (k : Nat) (g : Graph) : Nat :=
  g.transposing.card * (k ^ 2 + 1) ^ 2 + g.crossings.card * (k ^ 2 + 1) + g.chains.card

theorem NotHeavier.refl (g : Graph) : NotHeavier g g :=
  ⟨subset_rfl, subset_rfl, subset_rfl, subset_rfl⟩

theorem NotHeavier.trans {g h k : Graph} (h₁ : NotHeavier g h) (h₂ : NotHeavier h k) :
    NotHeavier g k :=
  ⟨h₂.movable.trans h₁.movable, h₂.transposing.trans h₁.transposing,
    h₂.crossings.trans h₁.crossings, h₂.chains.trans h₁.chains⟩

theorem Lighter.trans {g h k : Graph} (h₁ : Lighter g h) (h₂ : NotHeavier h k) : Lighter g k where
  movable := h₂.movable.trans h₁.movable
  transposing := h₂.transposing.trans h₁.transposing
  drop := by
    rcases h₁.drop with hdrop | hdrop | ⟨hkept, hdrop⟩
    · exact .inl (lt_of_le_of_lt h₂.transposing hdrop)
    · exact .inr (.inl (lt_of_le_of_lt h₂.crossings hdrop))
    · exact .inr (.inr ⟨h₂.crossings.trans hkept, lt_of_le_of_lt h₂.chains hdrop⟩)

theorem NotHeavier.weight_le {g h : Graph} (hgh : NotHeavier g h) (k : Nat) :
    h.weight k ≤ g.weight k := by
  have h₁ := Finset.card_le_card hgh.transposing
  have h₂ := Finset.card_le_card hgh.crossings
  have h₃ := Finset.card_le_card hgh.chains
  unfold weight
  gcongr

/-- Where there are few names there are few pairs. -/
private theorem card_pairs_le {g : Graph} {k : Nat} (hk : g.movable.card ≤ k) :
    g.crossings.card ≤ k ^ 2 ∧ g.chains.card ≤ k ^ 2 := by
  classical
  have ht : g.transposing.card ≤ k := (Finset.card_le_card Finset.subset_union_left).trans hk
  have hp : g.passing.card ≤ k := (Finset.card_le_card Finset.subset_union_right).trans hk
  have hcrossings := Finset.card_filter_le (g.transposing ×ˢ g.passing) fun pair => g.Leads pair.1 pair.2
  have hchains := Finset.card_filter_le (g.transposing ×ˢ g.transposing) fun pair =>
    g.Leads pair.1 pair.2
  rw [Finset.card_product] at hcrossings hchains
  have h₁ : g.transposing.card * g.passing.card ≤ k ^ 2 := by
    rw [sq]
    gcongr
  have h₂ : g.transposing.card * g.transposing.card ≤ k ^ 2 := by
    rw [sq]
    gcongr
  unfold crossings chains
  constructor
  · convert hcrossings.trans h₁
  · convert hchains.trans h₂

/-- Numbers below a base, put together as digits, are compared from the front. -/
private theorem digits_lt {base a b c a' b' c' : Nat} (hb : b < base) (hc : c < base)
    (h : a < a' ∨ a ≤ a' ∧ (b < b' ∨ b ≤ b' ∧ c < c')) :
    a * base ^ 2 + b * base + c < a' * base ^ 2 + b' * base + c' := by
  rcases h with h | ⟨ha, h | ⟨hb', h⟩⟩
  · calc a * base ^ 2 + b * base + c < a * base ^ 2 + b * base + base := by omega
      _ = a * base ^ 2 + (b + 1) * base := by ring
      _ ≤ a * base ^ 2 + base * base := by gcongr; omega
      _ = (a + 1) * base ^ 2 := by ring
      _ ≤ a' * base ^ 2 := by gcongr; omega
      _ ≤ a' * base ^ 2 + b' * base + c' := by omega
  · calc a * base ^ 2 + b * base + c < a * base ^ 2 + b * base + base := by omega
      _ = a * base ^ 2 + (b + 1) * base := by ring
      _ ≤ a' * base ^ 2 + b' * base := by gcongr; omega
      _ ≤ a' * base ^ 2 + b' * base + c' := by omega
  · calc a * base ^ 2 + b * base + c < a * base ^ 2 + b * base + c' := by omega
      _ ≤ a' * base ^ 2 + b' * base + c' := by gcongr

/-- A lighter graph weighs less. -/
theorem Lighter.weight_lt {g h : Graph} (hgh : Lighter g h) {k : Nat} (hk : g.movable.card ≤ k) :
    h.weight k < g.weight k := by
  have htransposing := Finset.card_le_card hgh.transposing
  obtain ⟨hcrossings, hchains⟩ := card_pairs_le ((Finset.card_le_card hgh.movable).trans hk)
  unfold weight
  refine digits_lt (by omega) (by omega) ?_
  rcases hgh.drop with hdrop | hdrop | ⟨hkept, hdrop⟩
  · exact .inl (Finset.card_lt_card hdrop)
  · exact .inr ⟨htransposing, .inl (Finset.card_lt_card hdrop)⟩
  · exact .inr ⟨htransposing, .inr ⟨Finset.card_le_card hkept, Finset.card_lt_card hdrop⟩⟩

theorem card_movable_le (g : Graph) : g.movable.card ≤ g.nodes.length := by
  have hsub : g.movable ⊆ (g.nodes.map Node.name).toFinset := by
    intro name hname
    rw [List.mem_toFinset]
    rcases Finset.mem_union.1 hname with hname | hname
    · obtain ⟨n, hn, -, rfl⟩ := mem_transposing.1 hname
      exact List.mem_map_of_mem hn
    · obtain ⟨n, hn, -, rfl⟩ := mem_passing.1 hname
      exact List.mem_map_of_mem hn
  refine (Finset.card_le_card hsub).trans ((List.toFinset_card_le _).trans ?_)
  rw [List.length_map]

/-- A graph is lighter than the number of moves that it is given. -/
theorem weight_lt_budget (g : Graph) : g.weight g.nodes.length < Transposes.budget g := by
  have ht : g.transposing.card ≤ g.nodes.length :=
    (Finset.card_le_card Finset.subset_union_left).trans g.card_movable_le
  obtain ⟨hcrossings, hchains⟩ := card_pairs_le g.card_movable_le
  unfold weight Transposes.budget
  generalize g.nodes.length = k at *
  change _ < (k + 2) ^ 8
  calc g.transposing.card * (k ^ 2 + 1) ^ 2 + g.crossings.card * (k ^ 2 + 1) + g.chains.card
      ≤ k * (k ^ 2 + 1) ^ 2 + k ^ 2 * (k ^ 2 + 1) + k ^ 2 := by gcongr
    _ < (k + 1) * (k ^ 2 + 1) ^ 2 := by
      have hsquare : k ^ 2 * (k ^ 2 + 1) + k ^ 2 < (k ^ 2 + 1) ^ 2 := by
        ring_nf
        omega
      rw [Nat.add_mul, Nat.one_mul]
      omega
    _ ≤ (k + 2) * ((k + 2) ^ 2) ^ 2 := by
      have hbase : k ^ 2 + 1 ≤ (k + 2) ^ 2 := by nlinarith
      gcongr
      omega
    _ = (k + 2) ^ 5 := by ring
    _ ≤ (k + 2) ^ 8 := Nat.pow_le_pow_right (by omega) (by omega)

end Graph

end TensorGraph
