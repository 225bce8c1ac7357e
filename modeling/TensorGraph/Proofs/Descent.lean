import TensorGraph.Proofs.Weight

/-!
# Moves descend

Every edit but a removal makes a graph lighter, and every edit but a move keeps it from getting
heavier. A move takes a transposition away, or else brings every node behind a transposition in
front of which it stood already: where a value is read in the new graph, a path leads from its
producer in the old one.

That something has dropped rests on the levels of the values. If the pair that a move is about were
still there, the old graph would have had a cycle.

## Main results

* `Rewriting.Effect.lighter` -- an edit that is no removal makes a graph lighter.
* `Rewriting.Effect.notHeavier` -- an edit that is no move does not make it heavier.
-/

namespace TensorGraph

theorem IsMovable.ne {op : String} (h : IsMovable op) : op ≠ "Gather" ∧ op ≠ "Constant" := by
  rcases h with rfl | h
  · decide
  · exact ⟨(Relocation.transparent_ne h).2.2, (Relocation.transparent_ne h).2.1⟩

namespace Graph

variable {taken : String → Prop} {g h : Graph}

/-! ## Paths -/

theorem Feeds.of_nodes {m n : Node} (hm : m ∈ g.nodes) (hn : n ∈ g.nodes) (hmop : IsMovable m.op)
    (hnop : IsMovable n.op) {value : String} (hvm : value ∈ m.results) (hvn : value ∈ n.inputs) :
    g.Feeds m.name n.name :=
  ⟨m, hm, n, hn, ⟨rfl, hmop⟩, ⟨rfl, hnop⟩, value, hvm, hvn⟩

/-- Along a path some value lies below all values at its end. -/
private theorem Leads.level (hg : Tidy taken g) {level : String → Nat} (hlevel : g.IsLevel level)
    {a b : String} (hab : g.Leads a b) :
    ∃ m ∈ g.nodes, m.name = a ∧ ∃ value ∈ m.results, ∀ n ∈ g.nodes, n.name = b →
      ∀ last ∈ n.results, level value < level last := by
  have hstep : ∀ m ∈ g.nodes, ∀ n ∈ g.nodes, IsMovable n.op → ∀ value ∈ m.results,
      value ∈ n.inputs → ∀ last ∈ n.results, level value < level last := by
    intro m hm n hn hop value hvm hvn last hlast
    have hread := Node.mem_reads.2 (.inl ⟨hvn, Node.ne_empty_of_mem_results hvm⟩)
    exact hlevel n hn value hread (mem_results.2 ⟨m, hm, hvm⟩) last hlast
      (hg.not_spare hn hlast hop.ne.1 hop.ne.2)
  induction hab with
  | single hfeeds =>
      obtain ⟨m, hm, n, hn, ⟨hmname, -⟩, ⟨hnname, hop⟩, value, hvm, hvn⟩ := hfeeds
      refine ⟨m, hm, hmname, value, hvm, fun n' hn' hname last hlast => ?_⟩
      obtain rfl := hg.eq_of_name_eq hn hn' (hnname.trans hname.symm)
      exact hstep m hm n hn hop value hvm hvn last hlast
  | tail _ hfeeds ih =>
      obtain ⟨first, hfirst, hname, value, hvalue, hbelow⟩ := ih
      obtain ⟨m, hm, n, hn, ⟨hmname, -⟩, ⟨hnname, hop⟩, middle, hvm, hvn⟩ := hfeeds
      refine ⟨first, hfirst, hname, value, hvalue, fun n' hn' hname last hlast => ?_⟩
      obtain rfl := hg.eq_of_name_eq hn hn' (hnname.trans hname.symm)
      exact (hbelow m hm hmname middle hvm).trans (hstep m hm n hn hop middle hvm hvn last hlast)

/-- In a graph with an order no node is behind itself. -/
theorem Acyclic.not_leads (ha : g.Acyclic) (hg : Tidy taken g) (a : String) : ¬ g.Leads a a := by
  intro hloop
  obtain ⟨level, hlevel⟩ := ha
  obtain ⟨m, hm, hname, value, hvalue, hbelow⟩ := Leads.level hg hlevel hloop
  exact absurd (hbelow m hm hname value hvalue) (Nat.lt_irrefl _)

/-! ## Nodes that are kept -/

/-- Every node that takes part in moves was there before, under its name. -/
def Kept (g h : Graph) : Prop :=
  ∀ k ∈ h.nodes, IsMovable k.op → ∃ m ∈ g.nodes, m.name = k.name ∧ m.op = k.op

namespace Kept

theorem transposing (hk : Kept g h) : h.transposing ⊆ g.transposing := by
  intro name hname
  obtain ⟨k, hk', hop, rfl⟩ := mem_transposing.1 hname
  obtain ⟨m, hm, hmname, hmop⟩ := hk k hk' (.inl hop)
  exact mem_transposing.2 ⟨m, hm, hmop.trans hop, hmname⟩

theorem passing (hk : Kept g h) : h.passing ⊆ g.passing := by
  intro name hname
  obtain ⟨k, hk', hop, rfl⟩ := mem_passing.1 hname
  obtain ⟨m, hm, hmname, hmop⟩ := hk k hk' (.inr hop)
  exact mem_passing.2 ⟨m, hm, hmop.symm ▸ hop, hmname⟩

theorem movable (hk : Kept g h) : h.movable ⊆ g.movable :=
  Finset.union_subset_union hk.transposing hk.passing

end Kept

/-- Every path was there before. -/
structure Traced (g h : Graph) : Prop where
  kept : Kept g h
  feeds : ∀ a b, h.Feeds a b → g.Leads a b

namespace Traced

theorem leads (ht : Traced g h) {a b : String} (hab : h.Leads a b) : g.Leads a b := by
  induction hab with
  | single hfeeds => exact ht.feeds _ _ hfeeds
  | tail _ hfeeds ih => exact ih.trans (ht.feeds _ _ hfeeds)

theorem crossings (ht : Traced g h) : h.crossings ⊆ g.crossings := by
  rintro ⟨a, b⟩ hab
  obtain ⟨ha, hb, hleads⟩ := mem_crossings.1 hab
  exact mem_crossings.2 ⟨ht.kept.transposing ha, ht.kept.passing hb, ht.leads hleads⟩

theorem chains (ht : Traced g h) : h.chains ⊆ g.chains := by
  rintro ⟨a, b⟩ hab
  obtain ⟨ha, hb, hleads⟩ := mem_chains.1 hab
  exact mem_chains.2 ⟨ht.kept.transposing ha, ht.kept.transposing hb, ht.leads hleads⟩

theorem notHeavier (ht : Traced g h) : NotHeavier g h :=
  ⟨ht.kept.movable, ht.kept.transposing, ht.crossings, ht.chains⟩

/-- Where one operator is no longer behind a transposition, a graph is lighter. -/
theorem lighter_of_crossing (ht : Traced g h) {a b : String} (hab : (a, b) ∈ g.crossings)
    (hnot : (a, b) ∉ h.crossings) : Lighter g h :=
  ⟨ht.kept.movable, ht.kept.transposing,
    .inr (.inl (Finset.ssubset_iff_subset_ne.2 ⟨ht.crossings, fun e => hnot (e ▸ hab)⟩))⟩

/-- Where one transposition is no longer behind another, a graph is lighter. -/
theorem lighter_of_chain (ht : Traced g h) {a b : String} (hab : (a, b) ∈ g.chains)
    (hnot : (a, b) ∉ h.chains) : Lighter g h :=
  ⟨ht.kept.movable, ht.kept.transposing, .inr (.inr ⟨ht.crossings,
    Finset.ssubset_iff_subset_ne.2 ⟨ht.chains, fun e => hnot (e ▸ hab)⟩⟩)⟩

/-- A node that reads what the node `a` read is not behind it any more. -/
theorem not_leads (ht : Traced g h) (hloop : ¬ g.Leads a a)
    (hlast : ∀ c, h.Feeds c b → g.Feeds c a) : ¬ h.Leads a b := by
  intro hab
  obtain ⟨c, hac, hcb⟩ := Relation.TransGen.tail'_iff.1 hab
  have hpath : Relation.ReflTransGen g.Feeds a c := by
    clear hcb
    induction hac with
    | refl => exact .refl
    | tail _ hfeeds ih => exact ih.trans (ht.feeds _ _ hfeeds).to_reflTransGen
  exact hloop (.tail' hpath (hlast c hcb))

end Traced

/-- A graph is lighter without one of its transpositions. -/
theorem lighter_of_transposing (hg : Tidy taken g) {place : Nat} {n : Node}
    (hn : g.nodes[place]? = some n) (hop : n.op = "Transpose") (hmovable : h.movable ⊆ g.movable)
    (hfrom : ∀ k ∈ h.nodes, k.op = "Transpose" →
      ∃ j m, j ≠ place ∧ g.nodes[j]? = some m ∧ m.name = k.name ∧ m.op = k.op) : Lighter g h := by
  have hsub : h.transposing ⊆ g.transposing := by
    intro name hname
    obtain ⟨k, hk, hkop, rfl⟩ := mem_transposing.1 hname
    obtain ⟨j, m, -, hm, hmname, hmop⟩ := hfrom k hk hkop
    exact mem_transposing.2 ⟨m, List.mem_of_getElem? hm, hmop.trans hkop, hmname⟩
  refine ⟨hmovable, hsub, .inl (Finset.ssubset_iff_subset_ne.2 ⟨hsub, fun e => ?_⟩)⟩
  have hold : n.name ∈ g.transposing := mem_transposing.2 ⟨n, List.mem_of_getElem? hn, hop, rfl⟩
  obtain ⟨k, hk, hkop, hkname⟩ := mem_transposing.1 (e ▸ hold)
  obtain ⟨j, m, hj, hm, hmname, -⟩ := hfrom k hk hkop
  exact hj (hg.place_eq hm hn (hmname.trans hkname))

/-! ## Nodes taken out of the flow -/

/-- Every node comes from one at another place, with its name and its operator. -/
private def ComesFrom (g h : Graph) (place : Nat) : Prop :=
  ∀ k ∈ h.nodes, ∃ j m, j ≠ place ∧ g.nodes[j]? = some m ∧ m.name = k.name ∧ m.op = k.op

private theorem ComesFrom.kept {place : Nat} (hc : ComesFrom g h place) : Kept g h := by
  intro k hk _
  obtain ⟨j, m, -, hm, hname, hop⟩ := hc k hk
  exact ⟨m, List.mem_of_getElem? hm, hname, hop⟩

private theorem ComesFrom.lighter {place : Nat} (hc : ComesFrom g h place) (hg : Tidy taken g) {n : Node}
    (hn : g.nodes[place]? = some n) (hop : n.op = "Transpose") : Lighter g h :=
  lighter_of_transposing hg hn hop hc.kept.movable fun k hk _ => hc k hk

private theorem isMovable_identity {op : String} (h : op = "Identity") : IsMovable op := by
  rw [h]
  exact .inr (by decide)

namespace Bypassed

variable {place : Nat} {n : Node} {old new : String}

private theorem comesFrom (hb : Bypassed g place n old new h) : ComesFrom g h place := by
  intro k hk
  obtain ⟨j, hj, m, hm, rfl⟩ := hb.mem_nodes.1 hk
  exact ⟨j, m, hj, hm, by simp, by simp⟩

theorem lighter (hb : Bypassed g place n old new h) (hg : Tidy taken g) (hop : n.op = "Transpose") :
    Lighter g h :=
  hb.comesFrom.lighter hg hb.node hop

/-- Past an identity the same paths lead as through it. -/
theorem traced (hb : Bypassed g place n old new h) (hop : n.op = "Identity")
    (hinputs : n.inputs = [new]) : Traced g h := by
  refine ⟨hb.comesFrom.kept, ?_⟩
  rintro a b ⟨k, hk, l, hl, ⟨rfl, hkop⟩, ⟨rfl, hlop⟩, value, hvk, hvl⟩
  obtain ⟨i, -, m₁, hm₁, rfl⟩ := hb.mem_nodes.1 hk
  obtain ⟨j, -, m₂, hm₂, rfl⟩ := hb.mem_nodes.1 hl
  rw [Node.results_replaceReads] at hvk
  rw [Node.op_replaceReads] at hkop hlop
  rw [Node.name_replaceReads, Node.name_replaceReads]
  have hm₁ := List.mem_of_getElem? hm₁
  have hm₂ := List.mem_of_getElem? hm₂
  have hn := List.mem_of_getElem? hb.node
  rcases Node.mem_inputs_replaceReads hvl with ⟨rfl, hold, hne⟩ | hvl
  · exact .tail (.single (.of_nodes hm₁ hn hkop (isMovable_identity hop) hvk (by simp [hinputs])))
      (.of_nodes hn hm₂ (isMovable_identity hop) hlop
        (Node.mem_results.2 ⟨by simp [hb.outputs], hne⟩) hold)
  · exact .single (.of_nodes hm₁ hm₂ hkop hlop hvk hvl)

end Bypassed

namespace Promoted

variable {place : Nat} {n : Node} {old new : String}

private theorem comesFrom (hp : Promoted g place n old new h) : ComesFrom g h place := by
  intro k hk
  obtain ⟨before, hbefore, j, m, hj, hm, rfl⟩ := hp.mem_nodes hk
  exact ⟨j, m, hj, hm, (name_node hbefore m).symm, (op_node hbefore m).symm⟩

theorem lighter (hp : Promoted g place n old new h) (hg : Tidy taken g) (hop : n.op = "Transpose") :
    Lighter g h :=
  hp.comesFrom.lighter hg hp.node hop

/-- When the name behind an identity goes to the value before it, the same paths lead on. -/
theorem traced (hp : Promoted g place n old new h) (hg : Tidy taken g) (hop : n.op = "Identity")
    (hinputs : n.inputs = [new]) : Traced g h := by
  have hn := List.mem_of_getElem? hp.node
  refine ⟨hp.comesFrom.kept, ?_⟩
  rintro a b ⟨k, hk, l, hl, ⟨rfl, hkop⟩, ⟨rfl, hlop⟩, value, hvk, hvl⟩
  obtain ⟨before, hbefore, i, m₁, hi, hm₁, rfl⟩ := hp.mem_nodes hk
  obtain ⟨before', hbefore', j, m₂, -, hm₂, rfl⟩ := hp.mem_nodes hl
  have hpresent := Node.ne_empty_of_mem_results hvk
  have hmem₁ := List.mem_of_getElem? hm₁
  have hmem₂ := List.mem_of_getElem? hm₂
  rw [op_node hbefore] at hkop
  rw [op_node hbefore'] at hlop
  rw [name_node hbefore, name_node hbefore']
  have hthrough (hnew : new ∈ m₁.results) (hold : old ≠ "") (hin : old ∈ m₂.inputs) :
      g.Leads m₁.name m₂.name :=
    .tail (.single (.of_nodes hmem₁ hn hkop (isMovable_identity hop) hnew (by simp [hinputs])))
      (.of_nodes hn hmem₂ (isMovable_identity hop) hlop
        (Node.mem_results.2 ⟨by simp [hp.outputs], hold⟩) hin)
  rcases (mem_results_node hbefore).1 hvk with ⟨-, rfl, hnew⟩ | ⟨hne, hvm⟩
  · -- whoever reads the name that was taken over, read one of the two before
    rcases mem_inputs_node hbefore' hp.other hvl with ⟨-, hin | hin⟩ | hin
    · exact .single (.of_nodes hmem₁ hmem₂ hkop hlop hnew hin)
    · exact hthrough hnew hpresent hin
    · exact hthrough hnew hpresent hin
  · rcases mem_inputs_node hbefore' hne hvl with ⟨rfl, -⟩ | hin
    · exact absurd hvm (hp.old_not_mem_results hg hi hm₁)
    · exact .single (.of_nodes hmem₁ hmem₂ hkop hlop hvm hin)

end Promoted

/-- Without one of its nodes a graph has no new paths. -/
theorem traced_of_subset (hsub : ∀ k ∈ h.nodes, k ∈ g.nodes) : Traced g h := by
  refine ⟨fun k hk _ => ⟨k, hsub k hk, rfl, rfl⟩, ?_⟩
  rintro a b ⟨k, hk, l, hl, ⟨rfl, hkop⟩, ⟨rfl, hlop⟩, value, hvk, hvl⟩
  exact .single (.of_nodes (hsub k hk) (hsub l hl) hkop hlop hvk hvl)

end Graph

namespace Rewriting

open TensorGraph.Graph Transposes Relocation

variable {taken : String → Prop} {s : Surroundings} {g h : Graph}

/-! ## Nodes in the place of nodes -/

/-- What a transposition reads, an operator behind it may read as well. -/
private theorem leads_of_source {t : PlacedTranspose} (ht : t.Stands s g) (hpresent : t.output ≠ "")
    {m n : Node} (hm : m ∈ g.nodes) (hn : n ∈ g.nodes) (hmop : IsMovable m.op) (hnop : IsMovable n.op)
    (hsource : t.source ∈ m.results) (hread : t.output ∈ n.inputs) :
    g.Feeds m.name t.node.name ∧ g.Leads m.name n.name := by
  have hfirst : g.Feeds m.name t.node.name :=
    .of_nodes hm ht.mem hmop (.inl ht.op) hsource (by simp [ht.inputs])
  refine ⟨hfirst, .tail (.single hfirst) (.of_nodes ht.mem hn (.inl ht.op) hnop ?_ hread)⟩
  exact Node.mem_results.2 ⟨by simp [ht.outputs], hpresent⟩

/-- The pair of a transposition and what reads its result. -/
private theorem feeds_output {t : PlacedTranspose} (ht : t.Stands s g) (hpresent : t.output ≠ "")
    {n : Node} (hn : n ∈ g.nodes) (hnop : IsMovable n.op) (hread : t.output ∈ n.inputs) :
    g.Feeds t.node.name n.name :=
  .of_nodes ht.mem hn (.inl ht.op) hnop (Node.mem_results.2 ⟨by simp [ht.outputs], hpresent⟩) hread

/-- Replacing a node by one that yields the same and may read what a transposition before it
reads. -/
private theorem traced_of_replaced {place : Nat} {n k : Node} (hr : Replaced g place n k h)
    (hop : IsMovable k.op → k.op = n.op)
    (hin : IsMovable k.op → ∀ value ∈ k.inputs, ∀ m ∈ g.nodes, IsMovable m.op →
      value ∈ m.results → g.Leads m.name n.name) : Traced g h := by
  have hn := List.mem_of_getElem? hr.node
  have hback : ∀ m ∈ h.nodes, IsMovable m.op → ∃ m' ∈ g.nodes, m'.name = m.name ∧ m'.op = m.op ∧
      m'.results = m.results := by
    intro m hm hmop
    rcases hr.mem_nodes.1 hm with rfl | ⟨j, -, hj⟩
    · exact ⟨n, hn, hr.name.symm, (hop hmop).symm, hr.results.symm⟩
    · exact ⟨m, List.mem_of_getElem? hj, rfl, rfl, rfl⟩
  refine ⟨fun m hm hmop => ?_, ?_⟩
  · obtain ⟨m', hm', hname, hop', -⟩ := hback m hm hmop
    exact ⟨m', hm', hname, hop'⟩
  · rintro a b ⟨m, hm, l, hl, ⟨rfl, hmop⟩, ⟨rfl, hlop⟩, value, hvm, hvl⟩
    obtain ⟨m', hm', hname, hop', hresults⟩ := hback m hm hmop
    rw [← hname]
    rw [← hresults] at hvm
    rcases hr.mem_nodes.1 hl with rfl | ⟨j, -, hj⟩
    · rw [hr.name]
      exact hin hlop value hvl m' hm' (hop' ▸ hmop) hvm
    · exact .single (.of_nodes hm' (List.mem_of_getElem? hj) (hop' ▸ hmop) hlop hvm hvl)

private theorem isMovable_sizes {t : PlacedTranspose} {n : Node} (h : takesSizes t n = true) :
    Capability.isTransparent n.op = true := by
  simp [Capability.isTransparent, (takesSizes_op h).1]

theorem Exchange.lighter {place : Nat} {n k : Node} (he : Exchange s g n .move k)
    (hr : Replaced g place n k h) (hg : Tidy taken g) (ha : g.Acyclic) : Lighter g h := by
  have hn := List.mem_of_getElem? hr.node
  cases he with
  | shim outputs distinct reason =>
      obtain hop : n.op = "Transpose" := by
        rcases reason.op with ⟨-, hkind⟩ | ⟨hop, -⟩
        · cases hkind
        · exact hop
      refine lighter_of_transposing hg hr.node hop (fun name hname => ?_) fun m hm hmop => ?_
      · obtain ⟨m, hm, hmop, rfl⟩ := mem_movable.1 hname
        rcases hr.mem_nodes.1 hm with rfl | ⟨j, -, hj⟩
        · exact mem_movable.2 ⟨n, hn, .inl hop, rfl⟩
        · exact mem_movable.2 ⟨m, List.mem_of_getElem? hj, hmop, rfl⟩
      · rcases hr.mem_nodes.1 hm with rfl | ⟨j, hj, hm⟩
        · have hidentity : "Identity" = "Transpose" := hmop
          exact absurd hidentity (by decide)
        · exact ⟨j, m, hj, hm, rfl, rfl⟩
  | @rebase t next stands inputs present resolved rank =>
      have hop := (resolvePermutation_ok resolved).1
      have hread : t.output ∈ n.inputs := by simp [inputs]
      have hsource : ∀ value ∈ (rebased t n next).inputs, value = t.source := fun value hvalue =>
        List.mem_singleton.1 hvalue
      have htraced : Traced g h := traced_of_replaced hr (fun _ => rfl)
        fun _ value hvalue m hm hmop hvm => (leads_of_source stands present hm hn hmop (.inl hop)
          (hsource value hvalue ▸ hvm) hread).2
      refine htraced.lighter_of_chain (a := t.node.name) (b := n.name) (mem_chains.2
        ⟨mem_transposing.2 ⟨_, stands.mem, stands.op, rfl⟩, mem_transposing.2 ⟨n, hn, hop, rfl⟩,
          .single (feeds_output stands present hn (.inl hop) hread)⟩) fun hmem => ?_
      refine htraced.not_leads (ha.not_leads hg t.node.name) (fun c hc => ?_) (mem_chains.1 hmem).2.2
      obtain ⟨m, hm, l, hl, ⟨rfl, hmop⟩, ⟨hlname, -⟩, value, hvm, hvl⟩ := hc
      have hl : l = rebased t n next := by
        rcases hr.mem_nodes.1 hl with rfl | ⟨j, hj, hl⟩
        · rfl
        · exact absurd (hg.place_eq hl hr.node hlname) hj
      rw [hl] at hvl
      have hvm : t.source ∈ m.results := hsource value hvl ▸ hvm
      rcases hr.mem_nodes.1 hm with rfl | ⟨j, -, hj⟩
      · exact (leads_of_source stands present hn hn (.inl hop) (.inl hop)
          (hr.results ▸ hvm) hread).1
      · exact (leads_of_source stands present (List.mem_of_getElem? hj) hn hmop (.inl hop) hvm hread).1

/-! ## Sizes -/

/-- Known sizes are behind no transposition. -/
theorem Exchange.traced {place : Nat} {n k : Node} (he : Exchange s g n .resize k)
    (hr : Replaced g place n k h) (hg : Tidy taken g) : Traced g h ∧ Lighter g h := by
  have hn := List.mem_of_getElem? hr.node
  cases he with
  | @sizes t dims stands takes present static rank =>
      have hop := isMovable_sizes takes
      have hconstant : ¬ IsMovable "Constant" := fun h => h.ne.2 rfl
      have htraced : Traced g h := traced_of_replaced hr (fun hmovable => absurd hmovable hconstant)
        fun hmovable => absurd hmovable hconstant
      refine ⟨htraced, htraced.lighter_of_crossing (a := t.node.name) (b := n.name) (mem_crossings.2
        ⟨mem_transposing.2 ⟨_, stands.mem, stands.op, rfl⟩, mem_passing.2 ⟨n, hn, hop, rfl⟩,
          .single (feeds_output stands present hn (.inr hop) (by simp [(takesSizes_op takes).2.1]))⟩)
        fun hmem => ?_⟩
      obtain ⟨m, hm, hmop, hmname⟩ := mem_passing.1 (mem_crossings.1 hmem).2.1
      rcases hr.mem_nodes.1 hm with rfl | ⟨j, hj, hm⟩
      · exact hconstant (.inr hmop)
      · exact hj (hg.place_eq hm hr.node hmname)

/-- Gathered sizes are not behind the transposition any more. -/
theorem traced_of_gathered {t : PlacedTranspose} {place : Nat} {n : Node}
    {sizes indices gather : String} (ht : t.Stands s g) (hn : g.nodes[place]? = some n)
    (htakes : takesSizes t n = true) (hpresent : t.output ≠ "")
    (hr : Gathered s g t place n sizes indices gather h) (hg : Tidy taken g) :
    Traced g h ∧ (g.Acyclic → Lighter g h) := by
  have hmem := List.mem_of_getElem? hn
  have hop := isMovable_sizes htakes
  have hread : t.output ∈ n.inputs := by simp [(takesSizes_op htakes).2.1]
  -- of the nodes that take part in moves only the one that takes sizes has changed
  have hnode : ∀ k ∈ h.nodes, IsMovable k.op →
      (∃ j, j ≠ place ∧ g.nodes[j]? = some k) ∨ k = sizesNode t n sizes := by
    intro k hk hkop
    rcases (hr.mem_nodes hn).1 hk with hk | rfl | rfl | rfl
    · exact .inl hk
    · exact .inr rfl
    · exact absurd rfl hkop.ne.2
    · exact absurd rfl hkop.ne.1
  have hsizes : ∀ k ∈ h.nodes, IsMovable k.op → sizes ∉ k.inputs := by
    intro k hk hkop hin
    rcases hnode k hk hkop with ⟨j, -, hj⟩ | rfl
    · exact hr.newSizes.2 (mem_names_of_mem_node (List.mem_of_getElem? hj) (.inr (.inl hin)))
    · refine hr.newSizes.2 (mem_names_of_mem_node ht.mem (.inr (.inl ?_)))
      rw [List.mem_singleton.1 hin]
      simp [ht.inputs]
  have hyields : ∀ m ∈ h.nodes, IsMovable m.op → ∀ l ∈ h.nodes, IsMovable l.op →
      ∀ value ∈ m.results, value ∈ l.inputs → m ∈ g.nodes := by
    intro m hm hmop l hl hlop value hvm hvl
    rcases hnode m hm hmop with ⟨j, -, hj⟩ | rfl
    · exact List.mem_of_getElem? hj
    · refine absurd hvl ?_
      rw [(Gathered.mem_results_sizesNode.1 hvm).1]
      exact hsizes l hl hlop
  have htraced : Traced g h := by
    refine ⟨fun k hk hkop => ?_, ?_⟩
    · rcases hnode k hk hkop with ⟨j, -, hj⟩ | rfl
      · exact ⟨k, List.mem_of_getElem? hj, rfl, rfl⟩
      · exact ⟨n, hmem, rfl, rfl⟩
    · rintro a b ⟨m, hm, l, hl, ⟨rfl, hmop⟩, ⟨rfl, hlop⟩, value, hvm, hvl⟩
      have hm := hyields m hm hmop l hl hlop value hvm hvl
      rcases hnode l hl hlop with ⟨j, -, hj⟩ | rfl
      · exact .single (.of_nodes hm (List.mem_of_getElem? hj) hmop hlop hvm hvl)
      · exact (leads_of_source ht hpresent hm hmem hmop (.inr hop)
          (List.mem_singleton.1 hvl ▸ hvm) hread).2
  refine ⟨htraced, fun ha => htraced.lighter_of_crossing (a := t.node.name) (b := n.name)
    (mem_crossings.2 ⟨mem_transposing.2 ⟨_, ht.mem, ht.op, rfl⟩, mem_passing.2 ⟨n, hmem, hop, rfl⟩,
      .single (feeds_output ht hpresent hmem (.inr hop) hread)⟩) fun hpair => ?_⟩
  refine htraced.not_leads (ha.not_leads hg t.node.name) (fun c hc => ?_) (mem_crossings.1 hpair).2.2
  obtain ⟨m, hm, l, hl, ⟨rfl, hmop⟩, ⟨hlname, hlop⟩, value, hvm, hvl⟩ := hc
  have hm := hyields m hm hmop l hl hlop value hvm hvl
  rcases hnode l hl hlop with ⟨j, hj, hl⟩ | rfl
  · exact absurd (hg.place_eq hl hn hlname) hj
  · exact (leads_of_source ht hpresent hm hmem hmop (.inr hop)
      (List.mem_singleton.1 hvl ▸ hvm) hread).1

/-! ## Relocated transpositions -/

section Relocated

variable {t : PlacedTranspose} {place : Nat} {consumer : Node} {policy : ConstantPolicy}
  {attributes : List (String × Attribute)} {p : Plan} {inputs : List String}

/-- The node that has stood where a node stands now: behind the operator, the operator did. -/
private def stoodAt (t : PlacedTranspose) (consumer : Node) (name : String) : String :=
  if name = t.node.name then consumer.name else name

/-- A node that takes part in moves is an old one, the operator, or the transposition. -/
private theorem node_of_relocated (hr : Relocated s g t consumer attributes inputs h) {k : Node}
    (hk : k ∈ h.nodes) (hop : IsMovable k.op) :
    (k ∈ g.nodes ∧ k ≠ t.node ∧ k ≠ consumer) ∨ k = frontNode consumer attributes inputs t.output ∨
      k = behindNode t.node t.perm t.output (consumer.outputs.headD "") := by
  rcases hr.origin k hk with ⟨n, hn, hne, hne', hlike⟩ | ⟨target, literal, hlike, -⟩ | hfront | hbehind
  · have hsame := hlike.other (hlike.op ▸ hop.ne.2)
    exact .inl ⟨hsame ▸ hn, hsame ▸ hne, hsame ▸ hne'⟩
  · exact absurd hlike.op hop.ne.2
  · exact .inr (.inl hfront)
  · exact .inr (.inr hbehind)

/-- What a node yields now, the one that stood in its place yielded before. Only the operator
yields something else. -/
private theorem maker_of_relocated (hrel : Relocatable s g t place consumer policy attributes p)
    (hr : Relocated s g t consumer attributes inputs h) (hg : Tidy taken g) {k : Node}
    (hk : k ∈ h.nodes) (hop : IsMovable k.op) {value : String} (hvalue : value ∈ k.results) :
    (k.name = consumer.name ∧ value = t.output) ∨
      ∃ m ∈ g.nodes, m ≠ t.node ∧ IsMovable m.op ∧ m.name = stoodAt t consumer k.name ∧
        value ∈ m.results := by
  rcases node_of_relocated hr hk hop with ⟨hmem, hne, -⟩ | rfl | rfl
  · refine .inr ⟨k, hmem, hne, hop, ?_, hvalue⟩
    rw [stoodAt, if_neg fun e => hne (hg.eq_of_name_eq hmem hrel.stands.mem e)]
  · exact .inl ⟨rfl, List.mem_singleton.1 (Node.mem_results.1 hvalue).1⟩
  · refine .inr ⟨consumer, hrel.mem, hrel.ne, .inr (passage?_eq_some hrel.passage).1, ?_, ?_⟩
    · exact (if_pos rfl).symm
    · rw [Node.mem_results, hrel.outputs]
      exact Node.mem_results.1 hvalue

/-- What an operator reads afterwards comes from nodes that led to it before. -/
private theorem leads_of_fed (hrel : Relocatable s g t place consumer policy attributes p)
    (hg : Tidy taken g) {m : Node} (hm : m ∈ g.nodes) (hop : IsMovable m.op) {value : String}
    (hvalue : value ∈ m.results) (hfed : Fed s g consumer value) :
    ∃ n ∈ g.nodes, n.op = "Transpose" ∧ value ∈ n.inputs ∧ g.Leads m.name consumer.name := by
  have hconsumer : IsMovable consumer.op := .inr (passage?_eq_some hrel.passage).1
  cases hfed with
  | @before n _ input mem op inputs read result =>
      have hin : value ∈ n.inputs := by simp [inputs]
      exact ⟨n, mem, op, hin, .tail (.single (.of_nodes hm mem hop (.inl op) hvalue hin))
        (.of_nodes mem hrel.mem (.inl op) hconsumer result read)⟩
  | @constant n _ name mem op read result target =>
      exfalso
      rcases target with rfl | ⟨-, hnew⟩
      · have honce := hg.once hm hvalue hop.ne.1 hop.ne.2
        exact hop.ne.2 (hg.eq_of_mem_results hm mem honce hvalue result ▸ op)
      · exact hnew (mem_names_of_mem_results (Graph.mem_results.2 ⟨m, hm, hvalue⟩))

/-- The operator comes before the transposition now, and every other step was a path before. -/
private theorem feeds_of_relocated (hrel : Relocatable s g t place consumer policy attributes p)
    (hr : Relocated s g t consumer attributes inputs h) (hg : Tidy taken g)
    (hreaders : ∀ n ∈ g.nodes, t.output ∈ n.reads → n = consumer) {a b : String}
    (hab : h.Feeds a b) : (a = consumer.name ∧ b = t.node.name) ∨
      g.Leads (stoodAt t consumer a) (stoodAt t consumer b) := by
  have hdistinct : consumer.name ≠ t.node.name := fun e =>
    hrel.ne (hg.eq_of_name_eq hrel.mem hrel.stands.mem e)
  have honce := hg.once hrel.stands.mem hrel.mem_output (transposition_ne hrel.stands.op).1
    (transposition_ne hrel.stands.op).2
  obtain ⟨k, hk, l, hl, ⟨rfl, hkop⟩, ⟨rfl, hlop⟩, value, hvk, hvl⟩ := hab
  have hmaker := maker_of_relocated hrel hr hg hk hkop hvk
  rcases node_of_relocated hr hl hlop with ⟨hmem, hne, hne'⟩ | rfl | rfl
  · -- an old node, which was no reader of the transposed value
    have hstood : stoodAt t consumer l.name = l.name := by
      rw [stoodAt, if_neg fun e => hne (hg.eq_of_name_eq hmem hrel.stands.mem e)]
    rcases hmaker with ⟨-, rfl⟩ | ⟨m, hm, -, hmop, hname, hvm⟩
    · exact absurd (hreaders l hmem (Node.mem_reads.2 (.inl ⟨hvl, hrel.present⟩))) hne'
    · rw [hstood, ← hname]
      exact .inr (.single (.of_nodes hm hmem hmop hlop hvm hvl))
  · have hfed := hr.fed value hvl
    have hstood : stoodAt t consumer (frontNode consumer attributes inputs t.output).name =
        consumer.name := if_neg hdistinct
    rcases hmaker with ⟨-, rfl⟩ | ⟨m, hm, -, hmop, hname, hvm⟩
    · -- no other transposition reads the transposed value
      obtain ⟨n, hn, hop, hin, -⟩ := leads_of_fed hrel hg hrel.stands.mem (.inl hrel.stands.op)
        hrel.mem_output hfed
      have hsame := hreaders n hn (Node.mem_reads.2 (.inl ⟨hin, hrel.present⟩))
      exact absurd (hsame ▸ hop) hrel.op.1
    · rw [hstood, ← hname]
      obtain ⟨_, -, -, -, hleads⟩ := leads_of_fed hrel hg hm hmop hvm hfed
      exact .inr hleads
  · have hvalue : value = t.output := List.mem_singleton.1 hvl
    rcases hmaker with ⟨hname, -⟩ | ⟨m, hm, hne, -, -, hvm⟩
    · exact .inl ⟨hname, rfl⟩
    · exact absurd (hg.eq_of_mem_results hm hrel.stands.mem honce (hvalue ▸ hvm) hrel.mem_output) hne

theorem lighter_of_relocated (hrel : Relocatable s g t place consumer policy attributes p)
    (hr : Relocated s g t consumer attributes inputs h) (hg : Tidy taken g) (ha : g.Acyclic)
    (hreaders : ∀ n ∈ g.nodes, t.output ∈ n.reads → n = consumer) : Lighter g h := by
  have hdistinct : consumer.name ≠ t.node.name := fun e =>
    hrel.ne (hg.eq_of_name_eq hrel.mem hrel.stands.mem e)
  have hconsumer := (passage?_eq_some hrel.passage).1
  have hsteps : ∀ a b, h.Feeds a b → (a = consumer.name ∧ b = t.node.name) ∨
      g.Leads (stoodAt t consumer a) (stoodAt t consumer b) := fun a b hab =>
    feeds_of_relocated hrel hr hg hreaders hab
  have hpath : ∀ a b, Relation.ReflTransGen h.Feeds a b →
      Relation.ReflTransGen g.Feeds (stoodAt t consumer a) (stoodAt t consumer b) := by
    intro a b hab
    induction hab with
    | refl => exact .refl
    | tail _ hfeeds ih =>
        rcases hsteps _ _ hfeeds with ⟨rfl, rfl⟩ | hleads
        · rwa [show stoodAt t consumer t.node.name = stoodAt t consumer consumer.name from
            (if_pos rfl).trans (if_neg hdistinct).symm]
        · exact ih.trans hleads.to_reflTransGen
  have hkept : Kept g h := by
    intro k hk hop
    rcases node_of_relocated hr hk hop with ⟨hmem, -⟩ | rfl | rfl
    · exact ⟨k, hmem, rfl, rfl⟩
    · exact ⟨consumer, hrel.mem, rfl, rfl⟩
    · exact ⟨t.node, hrel.stands.mem, rfl, rfl⟩
  have hfirst : g.Feeds t.node.name consumer.name :=
    feeds_output hrel.stands hrel.present hrel.mem (.inr hconsumer) hrel.reads
  -- an operator that is behind the transposition now was behind it before, and is another one
  have hcrossing : ∀ a b, (a, b) ∈ h.crossings →
      (a, b) ∈ g.crossings ∧ ¬ (a = t.node.name ∧ b = consumer.name) := by
    intro a b hab
    obtain ⟨ha', hb, hleads⟩ := mem_crossings.1 hab
    have ha' := hkept.transposing ha'
    have hb := hkept.passing hb
    obtain ⟨n, hn, hnop, hnname⟩ := mem_passing.1 hb
    have hother : ∀ m ∈ g.nodes, m.op = "Transpose" → m.name ≠ b := by
      rintro m hm hop hname
      obtain rfl := hg.eq_of_name_eq hm hn (hname.trans hnname.symm)
      exact (transparent_ne hnop).1 hop
    have hstood : stoodAt t consumer b = b :=
      if_neg fun e => hother t.node hrel.stands.mem hrel.stands.op e.symm
    by_cases hat : a = t.node.name
    · obtain ⟨c, hac, hcb⟩ := Relation.TransGen.head'_iff.1 hleads
      have hback : g.Leads consumer.name b := by
        rcases hsteps a c hac with ⟨e, -⟩ | hac
        · exact absurd (e.symm.trans hat) hdistinct
        · have hac := hac.trans_left (hpath c b hcb)
          rwa [hstood, hat, show stoodAt t consumer t.node.name = consumer.name from if_pos rfl] at hac
      refine ⟨mem_crossings.2 ⟨ha', hb, hat ▸ .head hfirst hback⟩, fun ⟨_, e⟩ => ?_⟩
      exact ha.not_leads hg consumer.name (e ▸ hback)
    · have hpath := hpath a b hleads.to_reflTransGen
      rw [hstood, show stoodAt t consumer a = a from if_neg hat] at hpath
      obtain ⟨m, hm, hmop, rfl⟩ := mem_transposing.1 ha'
      rcases Relation.reflTransGen_iff_eq_or_transGen.1 hpath with e | hleads
      · exact absurd e.symm (hother m hm hmop)
      · exact ⟨mem_crossings.2 ⟨ha', hb, hleads⟩, fun ⟨e, _⟩ => hat e⟩
  refine ⟨hkept.movable, hkept.transposing, .inr (.inl (Finset.ssubset_iff_subset_ne.2
    ⟨fun pair hpair => (hcrossing pair.1 pair.2 hpair).1, fun e => ?_⟩))⟩
  have hold : (t.node.name, consumer.name) ∈ g.crossings := mem_crossings.2
    ⟨mem_transposing.2 ⟨_, hrel.stands.mem, hrel.stands.op, rfl⟩,
      mem_passing.2 ⟨_, hrel.mem, hconsumer, rfl⟩, .single hfirst⟩
  exact (hcrossing _ _ (e ▸ hold)).2 ⟨rfl, rfl⟩

end Relocated

/-! ## All edits -/

/-- An edit that moves transpositions or takes sizes from before one makes a graph lighter. -/
theorem Effect.lighter {kind : Kind} (he : Effect s g kind h) (hkind : kind = .move ∨ kind = .resize)
    (hg : TidyTree taken g) (hcovers : ∀ value, taken value → value ∈ s.reserved)
    (ha : g.Acyclic) : Lighter g h := by
  have hop : ∀ {n : Node} {new : String}, StandsFor s g n new kind → n.op = "Transpose" := by
    intro n new hreason
    rcases hreason.op with ⟨-, rfl⟩ | ⟨hop, -⟩
    · exact absurd hkind (by decide)
    · exact hop
  cases he with
  | bypassed reason result => exact result.lighter hg.here (hop reason)
  | promoted reason result => exact result.lighter hg.here (hop reason)
  | replaced reason result =>
      rcases hkind with rfl | rfl
      · exact reason.lighter result hg.here ha
      · exact (reason.traced result hg.here).2
  | gathered stands node takes present result =>
      exact (traced_of_gathered stands node takes present result hg.here).2 ha
  | relocated inside readers conditions result infos =>
      have hr := result.relocated conditions hg hcovers
      rw [infos]
      exact lighter_of_relocated conditions hr.withInfos hg.here ha readers
  | removed => exact absurd hkind (by decide)

/-- An edit that is no move does not make a graph heavier. -/
theorem Effect.notHeavier {kind : Kind} (he : Effect s g kind h) (hkind : kind ≠ .move)
    (hg : Tidy taken g) : NotHeavier g h := by
  cases he with
  | bypassed reason result =>
      cases reason with
      | forwarded op inputs => exact (result.traced op inputs).notHeavier
      | _ => exact absurd rfl hkind
  | promoted reason result =>
      cases reason with
      | forwarded op inputs => exact (result.traced hg op inputs).notHeavier
      | _ => exact absurd rfl hkind
  | replaced reason result =>
      cases kind with
      | move => exact absurd rfl hkind
      | resize => exact (reason.traced result hg).1.notHeavier
      | removal => cases reason
      | cleanup => cases reason
  | gathered stands node takes present result =>
      exact (traced_of_gathered stands node takes present result hg).1.notHeavier
  | relocated => exact absurd rfl hkind
  | removed result =>
      obtain ⟨n, -, -, rfl⟩ := removeUnreferenced?_eq_some result
      exact (traced_of_subset fun k hk => List.mem_of_mem_eraseIdx hk).notHeavier

end Rewriting

end TensorGraph
