import TensorGraph.Proofs.Rewriting

/-!
# Edits keep graphs tidy

Whatever an edit does to the nodes of a graph, the bodies in it are bodies of the graph before,
in which names have been substituted. So a tree stays tidy if its root does, provided that names
which the root did not mention before are new to the tree.

## Main results

* `Graph.TidyTree.of_root` -- a tree stays tidy when its root does.
* `Rewriting.Edit.tidy` -- every edit keeps a tree tidy.
-/

namespace TensorGraph

/-- The names that are mentioned around a graph. -/
def Surroundings.mentions (s : Surroundings) (value : String) : Prop :=
  ∃ outer ∈ s.enclosing, outer.Mentions value

/-- Every name that is mentioned around a graph is reserved. -/
def Surroundings.Covers (s : Surroundings) : Prop := ∀ value, s.mentions value → value ∈ s.reserved

namespace Graph

/-- A graph after substitutions of names that it takes from outside, as far as the one may be replaced
by the other. -/
def Substituted (allowed : String → String → Prop) : Graph → Graph → Prop :=
  Relation.ReflTransGen fun g h => ∃ old new, allowed old new ∧ h = g.substituteOuter old new

theorem Substituted.mono {allowed allowed' : String → String → Prop} {g h : Graph}
    (hsub : Substituted allowed g h) (hmono : ∀ old new, allowed old new → allowed' old new) :
    Substituted allowed' g h := by
  refine Relation.ReflTransGen.mono ?_ _ _ hsub
  rintro _ _ ⟨old, new, hallowed, heq⟩
  exact ⟨old, new, hmono old new hallowed, heq⟩

theorem TidyTree.substituted {taken : String → Prop} {g h : Graph} (hg : TidyTree taken g)
    (hsub : Substituted (fun _ new => new = "" ∨ taken new) g h) : TidyTree taken h := by
  induction hsub with
  | refl => exact hg
  | tail _ hstep ih =>
      obtain ⟨old, new, hnew, rfl⟩ := hstep
      exact ih.substituteOuter hnew

theorem mem_names_of_mentions {g : Graph} {name : String} (h : g.Mentions name) :
    name ∈ g.names := by
  rcases h with hdef | ⟨-, n, hn, hmem⟩
  · exact mem_names_of_defines hdef
  · exact mem_names_of_mem_node hn (.inr (.inl hmem))

/-- Whether a node of a graph takes a value in or yields it, where an absent one only counts if it is
all that a node yields. -/
def Handles (g : Graph) (value : String) : Prop :=
  ∃ n ∈ g.nodes, value ∈ n.inputs ∧ value ≠ "" ∨ n.outputs = [value] ∨ value ∈ n.results

theorem Handles.mentions {g : Graph} {value : String} (h : g.Handles value) :
    value = "" ∨ g.Mentions value := by
  rw [or_iff_not_imp_left]
  intro hne
  obtain ⟨n, hn, ⟨hin, -⟩ | hout | hresult⟩ := h
  · exact .inr ⟨hne, n, hn, hin⟩
  · refine .inl (defines_iff.2 (.inr (mem_results.2 ⟨n, hn, Node.mem_results.2 ⟨?_, hne⟩⟩)))
    simp [hout]
  · exact .inl (defines_iff.2 (.inr (mem_results.2 ⟨n, hn, hresult⟩)))

/-- Whether the bodies in a graph are those under the same keys of the nodes of the same names in
another one, with names in them substituted as it is allowed. -/
def KeepsBodies (allowed : String → String → Prop) (g h : Graph) : Prop :=
  ∀ n ∈ h.nodes, ∀ body ∈ n.bodies, ∃ m ∈ g.nodes, m.name = n.name ∧
    ∃ before ∈ m.bodies, before.1 = body.1 ∧ Substituted allowed before.2 body.2

theorem KeepsBodies.of_subset {allowed : String → String → Prop} {g h : Graph}
    (hnodes : h.nodes ⊆ g.nodes) : KeepsBodies allowed g h :=
  fun n hn body hbody => ⟨n, hnodes hn, rfl, body, hbody, rfl, .refl⟩

/-- A tree stays tidy when its root does, as long as names that come to be mentioned are new and
bodies are kept. -/
theorem TidyTree.of_root {taken : String → Prop} {g h : Graph} (hg : TidyTree taken g)
    (hroot : Tidy taken h)
    (hnew : ∀ value, h.Mentions value → g.Mentions value ∨ value ∉ g.names)
    (hbodies : KeepsBodies (fun _ new => g.Handles new) g h) : TidyTree taken h := by
  refine .intro hroot fun n hn body hbody => ?_
  obtain ⟨m, hm, -, before, hbefore, -, hsub⟩ := hbodies n hn body hbody
  have hwide : TidyTree (fun value => g.takenIn taken value ∨ h.Mentions value) before.2 := by
    refine TidyTree.of_scope (hg.body hm hbefore) fun name hname htaken => ?_
    rcases htaken with htaken | hmention
    · exact htaken
    · exact .inr ((hnew name hmention).resolve_right fun hnot => hnot (names_body hm hbefore hname))
  refine (hwide.substituted (hsub.mono fun _ _ hnew =>
    hnew.mentions.imp_right fun hmentions => .inl (.inr hmentions))).of_scope fun name _ htaken => ?_
  exact htaken.elim (fun h => .inl (.inl h)) .inr

/-- A graph is tidy when its nodes are, and yield what was yielded before or is new. -/
theorem Tidy.of_nodes {taken : String → Prop} {g h : Graph} (hg : Tidy taken g)
    (hinputs : h.inputs = g.inputs) (hnames : (h.nodes.map Node.name).Nodup)
    (hdistinct : ∀ n ∈ h.nodes, n.results.Nodup)
    (hsingle : ∀ value, h.Once value ∨ h.Spare value)
    (hresults : ∀ value ∈ h.results, value ∈ g.results ∨ value ∉ g.inputs ∧ ¬ taken value)
    (hkeyed : ∀ n ∈ h.nodes, n.Keyed) : Tidy taken h where
  names := hnames
  distinct := hdistinct
  single := hsingle
  apart value hvalue := by
    rw [hinputs]
    exact (hresults value hvalue).elim (hg.apart value) And.left
  newInputs := by
    rw [hinputs]
    exact hg.newInputs
  newResults value hvalue := (hresults value hvalue).elim (hg.newResults value) And.right
  keyed := hkeyed

end Graph

/-! ## Taking a node out of the flow -/

theorem mem_map_eraseIdx_iff {α β : Type} {f : α → β} {l : List α} {i : Nat} {b : β} :
    b ∈ (l.map f).eraseIdx i ↔ ∃ j, j ≠ i ∧ ∃ a, l[j]? = some a ∧ f a = b := by
  rw [List.mem_eraseIdx_iff_getElem?]
  simp [List.getElem?_map, Option.map_eq_some_iff]

namespace Graph

/-- What is left of a graph when the readers of `old`, the only value of the node at a place,
read another value and the node is gone. -/
structure Bypassed (g : Graph) (place : Nat) (n : Node) (old new : String) (h : Graph) : Prop where
  node : g.nodes[place]? = some n
  outputs : n.outputs = [old]
  op : n.op ≠ "Gather" ∧ n.op ≠ "Constant"
  other : old = new → old = ""
  unspare : ¬ g.Spare new
  inputs : h.inputs = g.inputs
  yielded : ∀ value ∈ h.outputs, value ∈ g.outputs ∨ value = new
  dropped : old ∈ h.outputs → old = ""
  nodes : h.nodes = (g.nodes.map (Node.replaceReads old new)).eraseIdx place

namespace Bypassed

variable {taken : String → Prop} {g h : Graph} {place : Nat} {n : Node} {old new : String}

theorem mem_nodes (hb : Bypassed g place n old new h) {k : Node} :
    k ∈ h.nodes ↔ ∃ j, j ≠ place ∧ ∃ m, g.nodes[j]? = some m ∧ m.replaceReads old new = k := by
  rw [hb.nodes, mem_map_eraseIdx_iff]

theorem mem_results (hb : Bypassed g place n old new h) {value : String} (hne : value ≠ old) :
    value ∈ h.results ↔ value ∈ g.results := by
  rw [Graph.mem_results, Graph.mem_results]
  constructor
  · rintro ⟨k, hk, hvalue⟩
    obtain ⟨j, -, m, hm, rfl⟩ := hb.mem_nodes.1 hk
    exact ⟨m, List.mem_of_getElem? hm, by simpa using hvalue⟩
  · rintro ⟨m, hm, hvalue⟩
    obtain ⟨j, hplace, hj⟩ := elsewhere_of_ne hb.node hm fun e => by
      rw [← e, Node.mem_results, hb.outputs] at hvalue
      exact hne (List.mem_singleton.1 hvalue.1)
    exact ⟨m.replaceReads old new, hb.mem_nodes.2 ⟨j, hplace, m, hj, rfl⟩, by simpa using hvalue⟩

theorem results_subset (hb : Bypassed g place n old new h) {value : String}
    (h : value ∈ h.results) : value ∈ g.results := by
  obtain ⟨k, hk, hvalue⟩ := Graph.mem_results.1 h
  obtain ⟨j, -, m, hm, rfl⟩ := hb.mem_nodes.1 hk
  exact Graph.mem_results.2 ⟨m, List.mem_of_getElem? hm, by simpa using hvalue⟩

theorem defines_of_ne (hb : Bypassed g place n old new h) {value : String} (hne : value ≠ old) :
    h.defines value = g.defines value := by
  rw [Bool.eq_iff_iff, defines_iff, defines_iff, hb.inputs, hb.mem_results hne]

theorem mem_reads (hb : Bypassed g place n old new h) {k : Node} (hk : k ∈ h.nodes)
    {value : String} (hread : value ∈ k.reads) :
    value ≠ old ∧ ∃ m ∈ g.nodes, m.name = k.name ∧
      (value = new ∧ old ∈ m.reads ∨ value ∈ m.reads) := by
  obtain ⟨j, -, m, hm, rfl⟩ := hb.mem_nodes.1 hk
  have hmem := List.mem_of_getElem? hm
  rcases Node.mem_reads_replaceReads hread with ⟨rfl, hold⟩ | ⟨hread, hne⟩
  · refine ⟨fun e => ?_, m, hmem, by simp, .inl ⟨rfl, hold⟩⟩
    exact Node.ne_empty_of_mem_reads hread (e.trans (hb.other e.symm))
  · exact ⟨hne, m, hmem, by simp, .inr hread⟩

/-- A graph stays tidy when a node is bypassed. -/
theorem tidy (hb : Bypassed g place n old new h) (hg : Tidy taken g) : Tidy taken h := by
  have hmem := List.mem_of_getElem? hb.node
  have hsub : h.nodes.Sublist (g.nodes.map (Node.replaceReads old new)) := by
    rw [hb.nodes]
    exact List.eraseIdx_sublist _ _
  have hfrom : ∀ k ∈ h.nodes, ∃ m ∈ g.nodes, m.replaceReads old new = k := by
    intro k hk
    obtain ⟨j, -, m, hm, rfl⟩ := hb.mem_nodes.1 hk
    exact ⟨m, List.mem_of_getElem? hm, rfl⟩
  refine hg.of_nodes hb.inputs ?_ ?_ ?_ (fun value hvalue => .inl (hb.results_subset hvalue)) ?_
  · have hnames := hsub.map Node.name
    rw [List.map_map] at hnames
    exact hg.names.sublist (by simpa [Function.comp_def] using hnames)
  · intro k hk
    obtain ⟨m, hm, rfl⟩ := hfrom k hk
    simpa using hg.distinct m hm
  · intro value
    rcases hg.single value with honce | hspare
    · left
      intro k hk l hl hvk hvl
      obtain ⟨m, hm, rfl⟩ := hfrom k hk
      obtain ⟨m', hm', rfl⟩ := hfrom l hl
      simpa using honce m hm m' hm' (by simpa using hvk) (by simpa using hvl)
    · -- a spare value is not the one that is replaced, and not the replacement
      have hold : value ≠ old := by
        rintro rfl
        obtain ⟨k, -, -, hin, hout, -⟩ := hspare.gather
        have hold : value ∈ n.results :=
          Node.mem_results.2 ⟨by simp [hb.outputs], Node.ne_empty_of_mem_results hout⟩
        exact hg.not_spare hmem hold hb.op.1 hb.op.2 hspare
      have hne : value ≠ new := fun e => hb.unspare (e ▸ hspare)
      exact single_of_map hg.names hfrom (fun m _ => m.agreeOn_replaceReads hold hne)
        (fun hout => (hb.yielded value hout).resolve_right hne) (.inr hspare)
  · intro k hk
    obtain ⟨m, hm, rfl⟩ := hfrom k hk
    unfold Node.Keyed
    rw [Node.keys_replaceReads]
    exact hg.keyed m hm

theorem keepsBodies (hb : Bypassed g place n old new h) {allowed : String → String → Prop}
    (hallowed : old ≠ "" → allowed old new) : KeepsBodies allowed g h := by
  intro k hk body hbody
  obtain ⟨j, -, m, hm, rfl⟩ := hb.mem_nodes.1 hk
  refine ⟨m, List.mem_of_getElem? hm, by simp, ?_⟩
  obtain ⟨before, hbefore, hkey, hsame | ⟨hread, hsame⟩⟩ := mem_bodies_replaceReads hbody
  · exact ⟨before, hbefore, hkey.symm, hsame ▸ .refl⟩
  · exact ⟨before, hbefore, hkey.symm,
      .single ⟨old, new, hallowed (Node.ne_empty_of_mem_reads hread), hsame⟩⟩

/-- A tree stays tidy when a node of its root is bypassed by a value that is handled there. -/
theorem tidyTree (hb : Bypassed g place n old new h) (hg : TidyTree taken g)
    (hnew : g.Handles new) : TidyTree taken h := by
  refine hg.of_root (hb.tidy hg.here) (fun value hmention => .inl ?_)
    (hb.keepsBodies fun _ => hnew)
  rcases hmention with hdef | ⟨hne, k, hk, hin⟩
  · rw [defines_iff, hb.inputs] at hdef
    exact .inl (defines_iff.2 (hdef.imp_right hb.results_subset))
  · obtain ⟨j, -, m, hm, rfl⟩ := hb.mem_nodes.1 hk
    rcases Node.mem_inputs_replaceReads hin with ⟨rfl, -⟩ | hin
    · exact hnew.mentions.resolve_left hne
    · exact .inr ⟨hne, m, List.mem_of_getElem? hm, hin⟩

end Bypassed

end Graph

/-! ## Taking over a name -/

/-- The node that yields `new` in the place of `old`; any other node stays the same node. -/
def Node.renamed (old new : String) (n : Node) : Node :=
  if old ∈ n.results then
    { n with outputs := n.outputs.map (substituteName old new), bookmarks := [] }
  else n

namespace Node

variable {old new value : String} {n : Node}

@[simp] theorem name_renamed : (n.renamed old new).name = n.name := by
  unfold renamed; split <;> rfl

@[simp] theorem op_renamed : (n.renamed old new).op = n.op := by
  unfold renamed; split <;> rfl

@[simp] theorem inputs_renamed : (n.renamed old new).inputs = n.inputs := by
  unfold renamed; split <;> rfl

@[simp] theorem attributes_renamed : (n.renamed old new).attributes = n.attributes := by
  unfold renamed; split <;> rfl

@[simp] theorem bodies_renamed : (n.renamed old new).bodies = n.bodies := by
  unfold bodies; rw [attributes_renamed]

@[simp] theorem reads_renamed : (n.renamed old new).reads = n.reads := by
  unfold reads; rw [inputs_renamed, bodies_renamed]

theorem outputs_renamed (hold : old ≠ "") :
    (n.renamed old new).outputs = n.outputs.map (substituteName old new) := by
  unfold renamed
  split
  · rfl
  · rename_i h
    rw [map_substituteName_of_not_mem new fun hmem => h (mem_results.2 ⟨hmem, hold⟩)]

/-- A node yields what it did with the old name replaced, unless the new one is empty. -/
theorem results_renamed (old new : String) (n : Node) :
    (n.renamed old new).results = (n.results.map (substituteName old new)).filter (· != "") := by
  by_cases hmem : old ∈ n.results
  · have hold := ne_empty_of_mem_results hmem
    unfold results
    rw [outputs_renamed hold]
    induction n.outputs with
    | nil => rfl
    | cons output rest ih =>
        by_cases hempty : output = ""
        · have hne : output ≠ old := fun e => hold (e ▸ hempty)
          rw [List.map_cons, substituteName_eq, if_neg hne, hempty]
          exact ih
        · rw [List.map_cons, List.filter_cons, List.filter_cons_of_pos (by simpa using hempty),
            List.map_cons, List.filter_cons, ih]
  · have hpresent : ∀ value ∈ n.results, (value != "") = true := fun value hvalue => by
      simpa using ne_empty_of_mem_results hvalue
    rw [renamed, if_neg hmem, map_substituteName_of_not_mem new hmem,
      List.filter_eq_self.2 hpresent]

theorem mem_results_renamed :
    value ∈ (n.renamed old new).results ↔
      value ≠ "" ∧ (value = new ∧ old ∈ n.results) ∨ value ≠ old ∧ value ∈ n.results := by
  rw [results_renamed, List.mem_filter, bne_iff_ne, List.mem_map]
  constructor
  · rintro ⟨⟨before, hbefore, rfl⟩, hne⟩
    rw [substituteName_eq] at hne ⊢
    split
    · rename_i h
      exact .inl ⟨by simpa [h] using hne, rfl, h ▸ hbefore⟩
    · rename_i h
      exact .inr ⟨h, hbefore⟩
  · rintro (⟨hne, rfl, hold⟩ | ⟨hne, hvalue⟩)
    · exact ⟨⟨old, hold, by simp [substituteName_eq]⟩, hne⟩
    · exact ⟨⟨value, hvalue, by simp [substituteName_eq, hne]⟩, ne_empty_of_mem_results hvalue⟩

theorem agreeOn_renamed (n : Node) (h₁ : value ≠ old) (h₂ : value ≠ new) :
    n.AgreeOn value (n.renamed old new) where
  name := name_renamed
  op _ := op_renamed
  inputs := by rw [inputs_renamed]; exact id
  reads := by rw [reads_renamed]; exact id
  results := by
    rw [mem_results_renamed]
    simp [h₁, h₂]

theorem nodup_results_renamed (hnodup : n.results.Nodup) (hnew : new ∉ n.results) :
    (n.renamed old new).results.Nodup := by
  rw [results_renamed]
  exact (nodup_map_substituteName hnodup fun _ => hnew).filter _

end Node

namespace Graph

/-- Where a value is yielded once, renaming it at its producer is renaming it at every node. -/
theorem nodes_renameProduced {g : Graph} {old new : String}
    (hnames : (g.nodes.map Node.name).Nodup) (honce : g.Once old) :
    (g.renameProduced old new).nodes = g.nodes.map (Node.renamed old new) := by
  unfold renameProduced
  cases hplace : g.producerPlace? old with
  | none =>
      have hnot : ∀ n ∈ g.nodes, old ∉ n.results := by
        intro n hn hvalue
        have := producerPlace?_isSome_iff.2 (mem_results.2 ⟨n, hn, hvalue⟩)
        simp [hplace] at this
      refine (List.map_id g.nodes).symm.trans (List.map_congr_left fun n hn => ?_)
      rw [Node.renamed, if_neg (hnot n hn), id]
  | some place =>
      obtain ⟨n, hn, hvalue⟩ := producerPlace?_mem hplace
      rw [producer?_eq, hplace, Option.bind_some, hn]
      refine List.ext_getElem? fun i => ?_
      rw [List.getElem?_map]
      by_cases hi : i = place
      · subst hi
        obtain ⟨hlt, -⟩ := List.getElem?_eq_some_iff.1 hn
        simp only [putNode, List.getElem?_set_self hlt, hn, Option.map_some, Node.renamed,
          if_pos hvalue]
      · simp only [putNode, List.getElem?_set_ne fun e => hi e.symm]
        cases hm : g.nodes[i]? with
        | none => rfl
        | some m =>
            rw [Option.map_some, Node.renamed, if_neg]
            exact fun hvalue' => hi (place_eq_of_name_eq hnames hm hn
              (honce m (List.mem_of_getElem? hm) n (List.mem_of_getElem? hn) hvalue' hvalue))

/-- When a value takes over a name of which something is known, nothing else is forgotten than what
was known of the value. -/
theorem get?_movedInfos {infos : InfoTable} {old new name : String} (hold : name ≠ old)
    (hnew : name = new → (infos.get? name).isSome = true) :
    (movedInfos infos old new).get? name = infos.get? name := by
  have hrest : (infos.erase old).get? name = infos.get? name :=
    (InfoTable.get?_erase _ _ _).trans (if_neg hold)
  unfold movedInfos
  split
  · rfl
  · simp only
    split
    · exact hrest
    · rename_i hnone
      refine (InfoTable.get?_set _ _ _).trans ((if_neg fun heq => ?_).trans hrest)
      obtain rfl : name = new := heq
      rw [← hrest, hnone] at hnew
      exact absurd (hnew rfl) (by decide)

theorem renameValue_eq_ok {g h : Graph} {old new : String} (hne : old ≠ new)
    (hr : g.renameValue old new = .ok h) :
    g.defines new = false ∧
      h = { (g.renameProduced old new).replaceInputs old new with
        inputs := g.inputs.map (substituteName old new)
        outputs := g.outputs.map (substituteName old new)
        infos := movedInfos g.infos old new } := by
  have hsame : (g.renameProduced old new).inputs = g.inputs ∧
      (g.renameProduced old new).outputs = g.outputs ∧
      (g.renameProduced old new).infos = g.infos := by
    unfold renameProduced
    split <;> exact ⟨rfl, rfl, rfl⟩
  unfold renameValue at hr
  rw [if_neg hne] at hr
  split at hr
  · cases hr
  · rename_i hdef
    cases hr
    refine ⟨by simpa using hdef, ?_⟩
    simp [hsame.1, hsame.2.1, hsame.2.2]

/-- What is left of a graph when the node at a place is gone and the value `new` has got the
name of `old`, the only value of that node. -/
structure Promoted (g : Graph) (place : Nat) (n : Node) (old new : String) (h : Graph) : Prop where
  node : g.nodes[place]? = some n
  outputs : n.outputs = [old]
  op : n.op ≠ "Gather" ∧ n.op ≠ "Constant"
  other : old ≠ new
  produced : new ∈ g.results
  inside : new ∉ g.outputs
  unspare : ¬ g.Spare new
  inputs : h.inputs = g.inputs
  yielded : h.outputs = g.outputs
  nodes : ∃ before : Node → Node, (before = id ∨ before = Node.replaceReads old new) ∧
    h.nodes = (g.nodes.map fun m =>
      ((before m).renamed new old).replaceReads new old).eraseIdx place

namespace Promoted

variable {taken : String → Prop} {g h : Graph} {place : Nat} {n : Node} {old new : String}

theorem mem_nodes (hp : Promoted g place n old new h) {k : Node} (hk : k ∈ h.nodes) :
    ∃ before : Node → Node, (before = id ∨ before = Node.replaceReads old new) ∧
      ∃ j m, j ≠ place ∧ g.nodes[j]? = some m ∧
        ((before m).renamed new old).replaceReads new old = k := by
  obtain ⟨before, hbefore, hnodes⟩ := hp.nodes
  rw [hnodes, mem_map_eraseIdx_iff] at hk
  obtain ⟨j, hj, m, hm, hk⟩ := hk
  exact ⟨before, hbefore, j, m, hj, hm, hk⟩

/-- What a node yields after the change. -/
theorem mem_results_node {before : Node → Node}
    (hbefore : before = id ∨ before = Node.replaceReads old new) {m : Node} {value : String} :
    value ∈ (((before m).renamed new old).replaceReads new old).results ↔
      value ≠ "" ∧ (value = old ∧ new ∈ m.results) ∨ value ≠ new ∧ value ∈ m.results := by
  rw [Node.results_replaceReads, Node.mem_results_renamed]
  rcases hbefore with rfl | rfl <;> simp

theorem mem_inputs_node {before : Node → Node}
    (hbefore : before = id ∨ before = Node.replaceReads old new) {m : Node} {value : String}
    (hne : value ≠ new) (hin : value ∈ (((before m).renamed new old).replaceReads new old).inputs) :
    value = old ∧ (new ∈ m.inputs ∨ old ∈ m.inputs) ∨ value ∈ m.inputs := by
  have hfirst : ∀ {value}, value ∈ (before m).inputs →
      value = new ∧ old ∈ m.inputs ∨ value ∈ m.inputs := by
    intro value hin
    rcases hbefore with rfl | rfl
    · exact .inr hin
    · exact (Node.mem_inputs_replaceReads hin).imp_left fun h => ⟨h.1, h.2.1⟩
  rcases Node.mem_inputs_replaceReads hin with ⟨rfl, hin, -⟩ | hin <;>
    rw [Node.inputs_renamed] at hin
  · exact .inl ⟨rfl, (hfirst hin).elim (fun h => .inr h.2) .inl⟩
  · exact .inr ((hfirst hin).resolve_left fun h => hne h.1)

theorem mem_reads_node (hp : Promoted g place n old new h) {before : Node → Node}
    (hbefore : before = id ∨ before = Node.replaceReads old new) {m : Node} {value : String}
    (hread : value ∈ (((before m).renamed new old).replaceReads new old).reads) :
    value ≠ new ∧ (value = old ∧ new ∈ m.reads ∨ value ∈ m.reads) := by
  have hfirst : ∀ {value}, value ∈ (before m).reads →
      value = new ∧ old ∈ m.reads ∨ value ∈ m.reads := by
    intro value hread
    rcases hbefore with rfl | rfl
    · exact .inr hread
    · exact (Node.mem_reads_replaceReads hread).imp_right And.left
  rcases Node.mem_reads_replaceReads hread with ⟨rfl, hnew⟩ | ⟨hread, hne⟩
  · rw [Node.reads_renamed] at hnew
    exact ⟨hp.other, (hfirst hnew).elim (fun h => .inr h.2) fun h => .inl ⟨rfl, h⟩⟩
  · rw [Node.reads_renamed] at hread
    exact ⟨hne, .inr ((hfirst hread).resolve_left fun h => hne h.1)⟩

theorem results_subset (hp : Promoted g place n old new h) {value : String}
    (hvalue : value ∈ h.results) : value ∈ g.results := by
  obtain ⟨k, hk, hvalue⟩ := Graph.mem_results.1 hvalue
  obtain ⟨before, hbefore, j, m, -, hm, rfl⟩ := hp.mem_nodes hk
  rcases (mem_results_node hbefore).1 hvalue with ⟨hne, rfl, -⟩ | ⟨-, hvalue⟩
  · refine Graph.mem_results.2 ⟨n, List.mem_of_getElem? hp.node, Node.mem_results.2 ⟨?_, hne⟩⟩
    simp [hp.outputs]
  · exact Graph.mem_results.2 ⟨m, List.mem_of_getElem? hm, hvalue⟩

theorem mem_results (hp : Promoted g place n old new h) {value : String} (hne : value ≠ new) :
    value ∈ h.results ↔ value ∈ g.results := by
  refine ⟨hp.results_subset, fun hvalue => ?_⟩
  obtain ⟨before, hbefore, hnodes⟩ := hp.nodes
  -- a node that stays yields the value, or the replacement where the value is `old`
  obtain ⟨m, hm, hstays, hyields⟩ : ∃ m ∈ g.nodes, m.results ≠ n.results ∧
      (value ≠ "" ∧ (value = old ∧ new ∈ m.results) ∨ value ≠ new ∧ value ∈ m.results) := by
    by_cases hold : value = old
    · obtain ⟨m, hm, hnew⟩ := Graph.mem_results.1 hp.produced
      refine ⟨m, hm, fun e => ?_, .inl ⟨ne_empty_of_mem_results hvalue, hold, hnew⟩⟩
      rw [e, Node.mem_results, hp.outputs] at hnew
      exact hp.other (List.mem_singleton.1 hnew.1).symm
    · obtain ⟨m, hm, hvalue⟩ := Graph.mem_results.1 hvalue
      refine ⟨m, hm, fun e => ?_, .inr ⟨hne, hvalue⟩⟩
      rw [e, Node.mem_results, hp.outputs] at hvalue
      exact hold (List.mem_singleton.1 hvalue.1)
  obtain ⟨j, hplace, hj⟩ := elsewhere_of_ne hp.node hm fun e => hstays (e ▸ rfl)
  refine Graph.mem_results.2 ⟨_, ?_, (mem_results_node hbefore).2 hyields⟩
  rw [hnodes, mem_map_eraseIdx_iff]
  exact ⟨j, hplace, m, hj, rfl⟩

theorem defines_of_ne (hp : Promoted g place n old new h) {value : String} (hne : value ≠ new) :
    h.defines value = g.defines value := by
  rw [Bool.eq_iff_iff, defines_iff, defines_iff, hp.inputs, hp.mem_results hne]

theorem name_node {before : Node → Node} (hbefore : before = id ∨ before = Node.replaceReads old new)
    (m : Node) : (((before m).renamed new old).replaceReads new old).name = m.name := by
  rcases hbefore with rfl | rfl <;> simp

theorem op_node {before : Node → Node} (hbefore : before = id ∨ before = Node.replaceReads old new)
    (m : Node) : (((before m).renamed new old).replaceReads new old).op = m.op := by
  rcases hbefore with rfl | rfl <;> simp

/-- The name that is taken over was yielded by the node that goes alone. -/
theorem old_not_mem_results (hp : Promoted g place n old new h) (hg : Tidy taken g) {j : Nat}
    (hj : j ≠ place) {m : Node} (hm : g.nodes[j]? = some m) : old ∉ m.results := by
  intro hvm
  have hmem := List.mem_of_getElem? hp.node
  have hold : old ∈ n.results :=
    Node.mem_results.2 ⟨by simp [hp.outputs], Node.ne_empty_of_mem_results hvm⟩
  have honce := hg.once hmem hold hp.op.1 hp.op.2
  exact hj (hg.place_eq hm hp.node (honce m (List.mem_of_getElem? hm) n hmem hvm hold))

/-- Only the node that had the value before yields it under the name that it takes over. -/
private theorem once_old (hp : Promoted g place n old new h) (hg : Tidy taken g) : h.Once old := by
  have honce : g.Once new := (hg.single new).resolve_right hp.unspare
  have hmaker : ∀ k ∈ h.nodes, old ∈ k.results → ∃ m ∈ g.nodes, m.name = k.name ∧ new ∈ m.results := by
    intro k hk hvk
    obtain ⟨before, hbefore, j, m, hj, hm, rfl⟩ := hp.mem_nodes hk
    rcases (mem_results_node hbefore).1 hvk with ⟨-, -, hnew⟩ | ⟨-, hvm⟩
    · exact ⟨m, List.mem_of_getElem? hm, (name_node hbefore m).symm, hnew⟩
    · exact absurd hvm (hp.old_not_mem_results hg hj hm)
  intro k hk l hl hvk hvl
  obtain ⟨m, hm, hmname, hmnew⟩ := hmaker k hk hvk
  obtain ⟨m', hm', hmname', hmnew'⟩ := hmaker l hl hvl
  rw [← hmname, ← hmname']
  exact honce m hm m' hm' hmnew hmnew'

private theorem single_of_ne (hp : Promoted g place n old new h) (hg : Tidy taken g) {value : String}
    (hvalue : value ≠ old) : h.Once value ∨ h.Spare value := by
  rcases hg.single value with honce | hspare
  · have hmaker : ∀ k ∈ h.nodes, value ∈ k.results →
        ∃ m ∈ g.nodes, m.name = k.name ∧ value ∈ m.results := by
      intro k hk hvk
      obtain ⟨before, hbefore, j, m, -, hm, rfl⟩ := hp.mem_nodes hk
      exact ⟨m, List.mem_of_getElem? hm, (name_node hbefore m).symm,
        (((mem_results_node hbefore).1 hvk).resolve_left fun h => hvalue h.2.1).2⟩
    left
    intro k hk l hl hvk hvl
    obtain ⟨m, hm, hmname, hvm⟩ := hmaker k hk hvk
    obtain ⟨m', hm', hmname', hvm'⟩ := hmaker l hl hvl
    rw [← hmname, ← hmname']
    exact honce m hm m' hm' hvm hvm'
  · obtain ⟨before, hbefore, hnodes⟩ := hp.nodes
    have hne : value ≠ new := fun e => hp.unspare (e ▸ hspare)
    have hfrom : ∀ k ∈ h.nodes, ∃ m ∈ g.nodes,
        ((before m).renamed new old).replaceReads new old = k := fun k hk => by
      rw [hnodes] at hk
      exact List.mem_map.1 (List.mem_of_mem_eraseIdx hk)
    refine single_of_map hg.names hfrom (fun m _ => ?_) (by rw [hp.yielded]; exact id) (.inr hspare)
    · have hfirst : m.AgreeOn value (before m) := by
        rcases hbefore with rfl | rfl
        · exact .refl value m
        · exact m.agreeOn_replaceReads hvalue hne
      exact (hfirst.trans ((before m).agreeOn_renamed hne hvalue)).trans
        (Node.agreeOn_replaceReads _ hne hvalue)

/-- A graph stays tidy when a value takes over the name of the value of a node that goes. -/
theorem tidy (hp : Promoted g place n old new h) (hg : Tidy taken g) : Tidy taken h := by
  refine hg.of_nodes hp.inputs ?_ (fun k hk => ?_) (fun value => ?_)
    (fun value hvalue => .inl (hp.results_subset hvalue)) fun k hk => ?_
  · obtain ⟨before, hbefore, hnodes⟩ := hp.nodes
    have hnames := (List.eraseIdx_sublist (g.nodes.map fun m =>
      ((before m).renamed new old).replaceReads new old) place).map Node.name
    rw [← hnodes, List.map_map,
      show Node.name ∘ _ = Node.name from funext (name_node hbefore)] at hnames
    exact hg.names.sublist hnames
  · obtain ⟨before, hbefore, j, m, hj, hm, rfl⟩ := hp.mem_nodes hk
    have hresults : (before m).results = m.results := by
      rcases hbefore with rfl | rfl <;> simp
    rw [Node.results_replaceReads]
    refine Node.nodup_results_renamed ?_ ?_ <;> rw [hresults]
    · exact hg.distinct m (List.mem_of_getElem? hm)
    · exact hp.old_not_mem_results hg hj hm
  · by_cases hvalue : value = old
    · exact .inl (hvalue ▸ hp.once_old hg)
    · exact hp.single_of_ne hg hvalue
  · obtain ⟨before, hbefore, j, m, -, hm, rfl⟩ := hp.mem_nodes hk
    have := hg.keyed m (List.mem_of_getElem? hm)
    unfold Node.Keyed at this ⊢
    rw [Node.keys_replaceReads, Node.attributes_renamed]
    rcases hbefore with rfl | rfl
    · exact this
    · rwa [Node.keys_replaceReads]

theorem mentions_new (hp : Promoted g place n old new h) : g.Mentions new :=
  .inl (defines_iff.2 (.inr hp.produced))

theorem handles_new (hp : Promoted g place n old new h) : g.Handles new := by
  obtain ⟨m, hm, hvalue⟩ := Graph.mem_results.1 hp.produced
  exact ⟨m, hm, .inr (.inr hvalue)⟩

theorem handles_old (hp : Promoted g place n old new h) : g.Handles old :=
  ⟨n, List.mem_of_getElem? hp.node, .inr (.inl hp.outputs)⟩

theorem keepsBodies (hp : Promoted g place n old new h) {allowed : String → String → Prop}
    (hallowed : old ≠ "" → allowed old new) (hback : allowed new old) :
    KeepsBodies allowed g h := by
  intro k hk body hbody
  obtain ⟨before, hbefore, j, m, -, hm, rfl⟩ := hp.mem_nodes hk
  refine ⟨m, List.mem_of_getElem? hm, (name_node hbefore m).symm, ?_⟩
  -- the body before the renaming
  obtain ⟨middle, hmiddle, hkey, hlast⟩ : ∃ middle ∈ (before m).bodies, middle.1 = body.1 ∧
      Substituted allowed middle.2 body.2 := by
    obtain ⟨middle, hmiddle, hkey, hsame | ⟨-, hsame⟩⟩ := mem_bodies_replaceReads hbody
    · rw [Node.bodies_renamed] at hmiddle
      exact ⟨middle, hmiddle, hkey.symm, hsame ▸ .refl⟩
    · rw [Node.bodies_renamed] at hmiddle
      exact ⟨middle, hmiddle, hkey.symm, .single ⟨new, old, hback, hsame⟩⟩
  rcases hbefore with rfl | rfl
  · exact ⟨middle, hmiddle, hkey, hlast⟩
  · obtain ⟨first, hfirst, hkey', hsame | ⟨hread, hsame⟩⟩ := mem_bodies_replaceReads hmiddle
    · exact ⟨first, hfirst, hkey'.symm.trans hkey, hsame ▸ hlast⟩
    · exact ⟨first, hfirst, hkey'.symm.trans hkey,
        .head ⟨old, new, hallowed (Node.ne_empty_of_mem_reads hread), hsame⟩ hlast⟩

/-- A tree stays tidy when a value of its root takes over a name. -/
theorem tidyTree (hp : Promoted g place n old new h) (hg : TidyTree taken g) :
    TidyTree taken h := by
  refine hg.of_root (hp.tidy hg.here) (fun value hmention => .inl ?_)
    (hp.keepsBodies (fun _ => hp.handles_new) hp.handles_old)
  rcases hmention with hdef | ⟨hne, k, hk, hin⟩
  · rw [defines_iff, hp.inputs] at hdef
    exact .inl (defines_iff.2 (hdef.imp_right hp.results_subset))
  · obtain ⟨before, hbefore, j, m, -, hm, rfl⟩ := hp.mem_nodes hk
    rcases Node.mem_inputs_replaceReads hin with ⟨rfl, -⟩ | hin
    · exact hp.handles_old.mentions.resolve_left hne
    · rw [Node.inputs_renamed] at hin
      rcases hbefore with rfl | rfl
      · exact .inr ⟨hne, m, List.mem_of_getElem? hm, hin⟩
      · rcases Node.mem_inputs_replaceReads hin with ⟨rfl, -⟩ | hin
        · exact hp.mentions_new
        · exact .inr ⟨hne, m, List.mem_of_getElem? hm, hin⟩

end Promoted

end Graph

/-! ## Other nodes in the place of nodes -/

namespace Graph

theorem set_eq_map {g : Graph} (hnames : (g.nodes.map Node.name).Nodup) {place : Nat} {n : Node}
    (hn : g.nodes[place]? = some n) (k : Node) :
    g.nodes.set place k = g.nodes.map fun m => if m.name = n.name then k else m := by
  obtain ⟨hlt, -⟩ := List.getElem?_eq_some_iff.1 hn
  refine List.ext_getElem? fun i => ?_
  rw [List.getElem?_map]
  by_cases hi : i = place
  · subst hi
    rw [List.getElem?_set_self hlt, hn, Option.map_some, if_pos rfl]
  · rw [List.getElem?_set_ne fun e => hi e.symm]
    cases hm : g.nodes[i]? with
    | none => rfl
    | some m =>
        rw [Option.map_some, if_neg]
        exact fun hname => hi (place_eq_of_name_eq hnames hm hn hname)

/-- A graph stays tidy when a node comes in the place of one that yields the same values. -/
theorem Tidy.set {taken : String → Prop} {g h : Graph} (hg : Tidy taken g) {place : Nat} {n k : Node}
    (hn : g.nodes[place]? = some n) (hkname : k.name = n.name) (hkresults : k.results = n.results)
    (hagree : ∀ value, g.Spare value → n.AgreeOn value k) (hkeyed : n.Keyed → k.Keyed)
    (hinputs : h.inputs = g.inputs) (houtputs : h.outputs = g.outputs)
    (hnodes : h.nodes = g.nodes.set place k) : Tidy taken h := by
  have hmem := List.mem_of_getElem? hn
  have hmap := hnodes.trans (set_eq_map hg.names hn k)
  have hname : ∀ m : Node, (if m.name = n.name then k else m).name = m.name := by
    intro m
    split
    · rename_i h
      rw [hkname, h]
    · rfl
  have hsame : ∀ m ∈ g.nodes, (if m.name = n.name then k else m).results = m.results := by
    intro m hm
    split
    · rename_i h
      rw [hg.eq_of_name_eq hm hmem h, hkresults]
    · rfl
  have hold : ∀ m ∈ h.nodes, m = k ∨ m ∈ g.nodes := by
    intro m hm
    rw [hnodes] at hm
    exact (List.mem_or_eq_of_mem_set hm).symm
  refine hg.of_nodes hinputs ?_ ?_ ?_ (fun value hvalue => .inl ?_) ?_
  · rw [hmap, List.map_map, show Node.name ∘ _ = Node.name from funext hname]
    exact hg.names
  · rw [hmap, List.forall_mem_map]
    intro m hm
    rw [hsame m hm]
    exact hg.distinct m hm
  · intro value
    rcases hg.single value with honce | hspare
    · left
      unfold Once
      rw [hmap, List.forall_mem_map]
      intro m hm
      rw [List.forall_mem_map]
      intro m' hm' hvm hvm'
      rw [hname, hname]
      rw [hsame m hm] at hvm
      rw [hsame m' hm'] at hvm'
      exact honce m hm m' hm' hvm hvm'
    · refine single_of_map hg.names (fun m hm => List.mem_map.1 (hmap ▸ hm)) (fun m hm => ?_)
        (by rw [houtputs]; exact id) (.inr hspare)
      split
      · rename_i hmname
        rw [hg.eq_of_name_eq hm hmem hmname]
        exact hagree value hspare
      · exact .refl value m
  · obtain ⟨m, hm, hvm⟩ := mem_results.1 hvalue
    rcases hold m hm with rfl | hm
    · exact mem_results.2 ⟨n, hmem, hkresults ▸ hvm⟩
    · exact mem_results.2 ⟨m, hm, hvm⟩
  · intro m hm
    rcases hold m hm with rfl | hm
    · exact hkeyed (hg.keyed n hmem)
    · exact hg.keyed m hm

/-- Another node in the place of a node, which yields the same values. -/
structure Replaced (g : Graph) (place : Nat) (n k : Node) (h : Graph) : Prop where
  node : g.nodes[place]? = some n
  name : k.name = n.name
  outputs : k.outputs = n.outputs
  agree : ∀ value, g.Spare value → n.AgreeOn value k
  keyed : n.Keyed → k.Keyed
  bodies : ∀ body ∈ k.bodies, body ∈ n.bodies
  reads : ∀ value ∈ k.inputs, value = "" ∨ g.Mentions value
  inputs : h.inputs = g.inputs
  yielded : h.outputs = g.outputs
  nodes : h.nodes = g.nodes.set place k

namespace Replaced

variable {taken : String → Prop} {g h : Graph} {place : Nat} {n k : Node}

theorem mem_nodes (hr : Replaced g place n k h) {m : Node} :
    m ∈ h.nodes ↔ m = k ∨ ∃ j, j ≠ place ∧ g.nodes[j]? = some m := by
  rw [hr.nodes, mem_set_iff (List.getElem?_eq_some_iff.1 hr.node).1]

theorem results (hr : Replaced g place n k h) : k.results = n.results := by
  rw [Node.results, hr.outputs, Node.results]

theorem mem_results (hr : Replaced g place n k h) {value : String} :
    value ∈ h.results ↔ value ∈ g.results := by
  rw [Graph.mem_results, Graph.mem_results]
  constructor
  · rintro ⟨m, hm, hvalue⟩
    rcases hr.mem_nodes.1 hm with rfl | ⟨j, -, hm⟩
    · exact ⟨n, List.mem_of_getElem? hr.node, hr.results ▸ hvalue⟩
    · exact ⟨m, List.mem_of_getElem? hm, hvalue⟩
  · rintro ⟨m, hm, hvalue⟩
    rcases eq_or_elsewhere hr.node hm with rfl | hother
    · exact ⟨k, hr.mem_nodes.2 (.inl rfl), hr.results.symm ▸ hvalue⟩
    · exact ⟨m, hr.mem_nodes.2 (.inr hother), hvalue⟩

theorem defines (hr : Replaced g place n k h) (value : String) :
    h.defines value = g.defines value :=
  defines_congr hr.inputs (fun _ => hr.mem_results) value

theorem tidy (hr : Replaced g place n k h) (hg : Tidy taken g) : Tidy taken h :=
  hg.set hr.node hr.name hr.results hr.agree hr.keyed hr.inputs hr.yielded hr.nodes

theorem keepsBodies (hr : Replaced g place n k h) {allowed : String → String → Prop} :
    KeepsBodies allowed g h := by
  intro m hm body hbody
  rcases hr.mem_nodes.1 hm with rfl | ⟨j, -, hm⟩
  · exact ⟨n, List.mem_of_getElem? hr.node, hr.name.symm, body, hr.bodies body hbody, rfl, .refl⟩
  · exact ⟨m, List.mem_of_getElem? hm, rfl, body, hbody, rfl, .refl⟩

theorem tidyTree (hr : Replaced g place n k h) (hg : TidyTree taken g) : TidyTree taken h := by
  refine hg.of_root (hr.tidy hg.here) (fun value hmention => .inl ?_) hr.keepsBodies
  rcases hmention with hdef | ⟨hne, m, hm, hin⟩
  · exact .inl (by rwa [← hr.defines])
  · rcases hr.mem_nodes.1 hm with rfl | ⟨j, -, hm⟩
    · exact (hr.reads value hin).resolve_left hne
    · exact .inr ⟨hne, m, List.mem_of_getElem? hm, hin⟩

end Replaced

/-- A tree stays tidy when its root loses nodes, or has them in another order. -/
theorem TidyTree.of_subperm {taken : String → Prop} {g h : Graph} (hg : TidyTree taken g)
    (hnodes : h.nodes.Subperm g.nodes) (hinputs : h.inputs = g.inputs)
    (houtputs : h.outputs = g.outputs) : TidyTree taken h := by
  have hsub : ∀ n ∈ h.nodes, n ∈ g.nodes := fun n hn => hnodes.subset hn
  have hresults : ∀ value ∈ h.results, value ∈ g.results := by
    intro value hvalue
    obtain ⟨n, hn, hvalue⟩ := mem_results.1 hvalue
    exact mem_results.2 ⟨n, hsub n hn, hvalue⟩
  have hnames : (h.nodes.map Node.name).Nodup := by
    obtain ⟨nodes, hperm, hsublist⟩ := hnodes
    exact (hperm.map Node.name).nodup_iff.1 (hg.here.names.sublist (hsublist.map _))
  have hroot : Tidy taken h := by
    refine hg.here.of_nodes hinputs hnames (fun n hn => hg.here.distinct n (hsub n hn))
      (fun value => ?_) (fun value hvalue => .inl (hresults value hvalue))
      (fun n hn => hg.here.keyed n (hsub n hn))
    exact single_of_map (f := id) hg.here.names (fun n hn => ⟨n, hsub n hn, rfl⟩)
      (fun n _ => .refl value n) (by rw [houtputs]; exact id) (hg.here.single value)
  refine hg.of_root hroot (fun value hmention => .inl ?_) (.of_subset hsub)
  rcases hmention with hdef | ⟨hne, n, hn, hin⟩
  · rw [defines_iff, hinputs] at hdef
    exact .inl (defines_iff.2 (hdef.imp_right (hresults value)))
  · exact .inr ⟨hne, n, hsub n hn, hin⟩

end Graph

end TensorGraph
