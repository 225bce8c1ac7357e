import Mathlib.Data.List.Nodup
import TensorGraph.Proofs.Naming

/-!
# Tidy graphs

The rules on names that every rewrite keeps, in every scope: nodes have distinct names, what
an enclosing graph mentions is not defined again, and a value is yielded once.

To the last rule there is one exception. Where the sizes of a transposed value are rearranged
while the graph runs, the node that gathers them may find that the constant which it reads has
got the very name that it yields. Such a value is `Spare`: the gathering node is its only
reader, and it is no output, so nobody misses what the node yields.

## Main results

* `Graph.TidyTree.of_scope` -- a tree stays tidy where names count that it does not use.
* `Graph.TidyTree.substituteOuter` -- and under a substitution of names that it takes
  from outside.
-/

namespace TensorGraph

namespace Node

/-- Two nodes of one name that agree on what they do with a value. -/
structure AgreeOn (value : String) (n m : Node) : Prop where
  name : m.name = n.name
  op : value ∈ n.results → m.op = n.op
  inputs : value ∈ n.inputs → value ∈ m.inputs
  reads : value ∈ m.reads → value ∈ n.reads
  results : value ∈ m.results ↔ value ∈ n.results

/-- A substitution of other names leaves alone what a node does with a value. -/
theorem agreeOn_replaceReads {value old new : String} (n : Node)
    (hold : value ≠ old) (hnew : value ≠ new) : n.AgreeOn value (n.replaceReads old new) where
  name := by simp
  op _ := by simp
  inputs h := mem_inputs_replaceReads_of_ne h hold
  reads h := by
    rcases mem_reads_replaceReads h with ⟨hname, -⟩ | ⟨hread, -⟩
    · exact absurd hname hnew
    · exact hread
  results := by simp

theorem AgreeOn.refl (value : String) (n : Node) : n.AgreeOn value n :=
  ⟨rfl, fun _ => rfl, id, id, Iff.rfl⟩

theorem AgreeOn.trans {value : String} {n m k : Node} (h₁ : n.AgreeOn value m)
    (h₂ : m.AgreeOn value k) : n.AgreeOn value k :=
  ⟨h₂.name.trans h₁.name, fun h => (h₂.op (h₁.results.2 h)).trans (h₁.op h),
    h₂.inputs ∘ h₁.inputs, h₁.reads ∘ h₂.reads, h₂.results.trans h₁.results⟩

end Node

namespace Graph

/-! ## Values with one producer -/

/-- No two nodes yield a value. -/
def Once (g : Graph) (value : String) : Prop :=
  ∀ n ∈ g.nodes, ∀ m ∈ g.nodes, value ∈ n.results → value ∈ m.results → n.name = m.name

theorem Once.of_name {g : Graph} {value : String} (name : String)
    (h : ∀ n ∈ g.nodes, value ∈ n.results → n.name = name) : g.Once value :=
  fun n hn m hm hvn hvm => (h n hn hvn).trans (h m hm hvm).symm

/-- A value that the only node which reads it, a gathering one, yields once more. -/
structure Spare (g : Graph) (value : String) : Prop where
  inside : value ∉ g.outputs
  gather : ∃ k ∈ g.nodes, k.op = "Gather" ∧ value ∈ k.inputs ∧ value ∈ k.results ∧
    (∀ n ∈ g.nodes, value ∈ n.reads → n.name = k.name) ∧
    ∃ constant : String, ∀ n ∈ g.nodes, value ∈ n.results →
      n.name = k.name ∨ n.name = constant ∧ n.op = "Constant"

private theorem eq_of_name_eq {g : Graph} (hnames : (g.nodes.map Node.name).Nodup) {n m : Node}
    (hn : n ∈ g.nodes) (hm : m ∈ g.nodes) (h : n.name = m.name) : n = m :=
  List.inj_on_of_nodup_map hnames hn hm h

/-- Where nodes have distinct names, only one place has a node of some name. -/
theorem place_eq_of_name_eq {g : Graph} (hnames : (g.nodes.map Node.name).Nodup) {i j : Nat}
    {n m : Node} (hi : g.nodes[i]? = some n) (hj : g.nodes[j]? = some m) (h : n.name = m.name) :
    i = j := by
  obtain ⟨hilt, rfl⟩ := List.getElem?_eq_some_iff.1 hi
  obtain ⟨hjlt, rfl⟩ := List.getElem?_eq_some_iff.1 hj
  have hi : i < (g.nodes.map Node.name).length := by simpa using hilt
  have hj : j < (g.nodes.map Node.name).length := by simpa using hjlt
  exact (List.Nodup.getElem_inj_iff hnames).1 (show (g.nodes.map Node.name)[i] =
    (g.nodes.map Node.name)[j] by simpa using h)

namespace Spare

variable {g h : Graph} {value : String}

theorem op_of_reads (hv : g.Spare value) (hnames : (g.nodes.map Node.name).Nodup) {n : Node}
    (hn : n ∈ g.nodes) (hread : value ∈ n.reads) : n.op = "Gather" := by
  obtain ⟨k, hk, hop, -, -, hreaders, -⟩ := hv.gather
  rwa [eq_of_name_eq hnames hn hk (hreaders n hn hread)]

theorem op_of_results (hv : g.Spare value) (hnames : (g.nodes.map Node.name).Nodup) {n : Node}
    (hn : n ∈ g.nodes) (hresult : value ∈ n.results) : n.op = "Gather" ∨ n.op = "Constant" := by
  obtain ⟨k, hk, hop, -, -, -, constant, hmakers⟩ := hv.gather
  rcases hmakers n hn hresult with hname | ⟨-, hconstant⟩
  · left
    rwa [eq_of_name_eq hnames hn hk hname]
  · exact .inr hconstant

end Spare

/-- Where the nodes agree on a value, and some are lost, it is still yielded once or spare. -/
theorem single_of_map {g h : Graph} {value : String} {f : Node → Node}
    (hnames : (g.nodes.map Node.name).Nodup) (hfrom : ∀ m ∈ h.nodes, ∃ n ∈ g.nodes, f n = m)
    (hagree : ∀ n ∈ g.nodes, n.AgreeOn value (f n)) (houtputs : value ∈ h.outputs → value ∈ g.outputs)
    (hg : g.Once value ∨ g.Spare value) : h.Once value ∨ h.Spare value := by
  rcases hg with honce | ⟨hinside, k, hk, hop, hin, hout, hreaders, constant, hmakers⟩
  · left
    intro m hm m' hm' hvm hvm'
    obtain ⟨n, hn, rfl⟩ := hfrom m hm
    obtain ⟨n', hn', rfl⟩ := hfrom m' hm'
    rw [(hagree n hn).name, (hagree n' hn').name]
    exact honce n hn n' hn' ((hagree n hn).results.1 hvm) ((hagree n' hn').results.1 hvm')
  · -- the gathering node is kept, or only the constant is left
    by_cases hkept : f k ∈ h.nodes
    · refine .inr ⟨fun h => hinside (houtputs h), f k, hkept, ?_, (hagree k hk).inputs hin,
        (hagree k hk).results.2 hout, ?_, constant, ?_⟩
      · rw [(hagree k hk).op hout, hop]
      · intro m hm hread
        obtain ⟨n, hn, rfl⟩ := hfrom m hm
        rw [(hagree n hn).name, (hagree k hk).name]
        exact hreaders n hn ((hagree n hn).reads hread)
      · intro m hm hresult
        obtain ⟨n, hn, rfl⟩ := hfrom m hm
        have hresult := (hagree n hn).results.1 hresult
        rw [(hagree n hn).name, (hagree k hk).name, (hagree n hn).op hresult]
        exact hmakers n hn hresult
    · left
      have hconstant : ∀ m ∈ h.nodes, value ∈ m.results → m.name = constant := by
        intro m hm hresult
        obtain ⟨n, hn, rfl⟩ := hfrom m hm
        rcases hmakers n hn ((hagree n hn).results.1 hresult) with hname | ⟨hname, -⟩
        · exact absurd (eq_of_name_eq hnames hn hk hname ▸ hm) hkept
        · rw [(hagree n hn).name, hname]
      exact .of_name constant hconstant

/-! ## Tidy graphs -/

/-- Whether a graph defines a value or one of its nodes takes it in. -/
def Mentions (g : Graph) (value : String) : Prop :=
  g.defines value = true ∨ value ≠ "" ∧ ∃ n ∈ g.nodes, value ∈ n.inputs

/-- The names that no body of a graph may define, when `taken` are those taken around it. -/
def takenIn (g : Graph) (taken : String → Prop) (value : String) : Prop :=
  taken value ∨ g.Mentions value

/-- The rules on names that every rewrite keeps, when `taken` are the names that enclosing
graphs mention. -/
structure Tidy (taken : String → Prop) (g : Graph) : Prop where
  /-- No two nodes have one name. -/
  names : (g.nodes.map Node.name).Nodup
  /-- No node yields a value twice. -/
  distinct : ∀ n ∈ g.nodes, n.results.Nodup
  /-- No value is yielded by two nodes, unless it is a spare one. -/
  single : ∀ value, g.Once value ∨ g.Spare value
  /-- No value that is yielded is an input. -/
  apart : ∀ value ∈ g.results, value ∉ g.inputs
  /-- No input is taken around the graph. -/
  newInputs : ∀ value ∈ g.inputs, ¬ taken value
  /-- Nor is a value that is yielded. -/
  newResults : ∀ value ∈ g.results, ¬ taken value
  /-- Attributes are records. -/
  keyed : ∀ n ∈ g.nodes, n.Keyed

/-- Every graph of a tree is tidy. -/
abbrev TidyTree : (String → Prop) → Graph → Prop := Everywhere takenIn Tidy

namespace Tidy

variable {taken : String → Prop} {g : Graph}

theorem eq_of_name_eq (hg : Tidy taken g) {n m : Node} (hn : n ∈ g.nodes) (hm : m ∈ g.nodes)
    (h : n.name = m.name) : n = m :=
  Graph.eq_of_name_eq hg.names hn hm h

theorem place_eq (hg : Tidy taken g) {i j : Nat} {n m : Node} (hi : g.nodes[i]? = some n)
    (hj : g.nodes[j]? = some m) (h : n.name = m.name) : i = j :=
  place_eq_of_name_eq hg.names hi hj h

/-- A value that a node other than a gathering one or a constant yields is not spare. -/
theorem not_spare (hg : Tidy taken g) {n : Node} (hn : n ∈ g.nodes) {value : String}
    (hvalue : value ∈ n.results) (hgather : n.op ≠ "Gather") (hconstant : n.op ≠ "Constant") :
    ¬ g.Spare value := by
  intro h
  rcases h.op_of_results hg.names hn hvalue with hop | hop
  · exact hgather hop
  · exact hconstant hop

theorem once (hg : Tidy taken g) {n : Node} (hn : n ∈ g.nodes) {value : String}
    (hvalue : value ∈ n.results) (hgather : n.op ≠ "Gather") (hconstant : n.op ≠ "Constant") :
    g.Once value :=
  (hg.single value).resolve_right (hg.not_spare hn hvalue hgather hconstant)

theorem eq_of_mem_results (hg : Tidy taken g) {n m : Node} (hn : n ∈ g.nodes)
    (hm : m ∈ g.nodes) {value : String} (honce : g.Once value) (hvn : value ∈ n.results)
    (hvm : value ∈ m.results) : n = m :=
  hg.eq_of_name_eq hn hm (honce n hn m hm hvn hvm)

end Tidy

/-! ## Trees under substitution -/

/-- A tree stays tidy where names are taken that it does not use. -/
theorem TidyTree.of_scope {taken taken' : String → Prop} {g : Graph} (h : TidyTree taken g)
    (hnew : ∀ name ∈ g.names, taken' name → taken name) : TidyTree taken' g := by
  induction h generalizing taken' with
  | @intro taken g here _ ih =>
      refine .intro { here with newInputs := ?_, newResults := ?_ } ?_
      · exact fun v hv htaken => here.newInputs v hv (hnew v (mem_names_of_mem_inputs hv) htaken)
      · exact fun v hv htaken => here.newResults v hv (hnew v (mem_names_of_mem_results hv) htaken)
      · intro n hn body hbody
        refine ih n hn body hbody fun name hname htaken => ?_
        exact htaken.imp (hnew name (names_body hn hbody hname)) id

/-- A tree stays tidy when a name that it takes from outside is replaced by another one. -/
theorem TidyTree.substituteOuter {taken : String → Prop} {g : Graph} (h : TidyTree taken g)
    {old new : String} (hnew : new = "" ∨ taken new) : TidyTree taken (g.substituteOuter old new) := by
  induction h with
  | @intro taken g here hinside ih =>
      by_cases hold : g.defines old = true
      · rw [substituteOuter_eq, if_pos hold]
        exact .intro here hinside
      have hnodes : (g.substituteOuter old new).nodes = g.nodes.map (Node.replaceReads old new) := by
        rw [nodes_substituteOuter, if_neg hold]
      have hnewResult : new ∉ g.results := by
        intro hresult
        rcases hnew with rfl | htaken
        · exact ne_empty_of_mem_results hresult rfl
        · exact here.newResults new hresult htaken
      refine .intro
        { names := ?_, distinct := ?_, single := ?_, apart := ?_, newInputs := ?_,
          newResults := ?_, keyed := ?_ } ?_
      · rw [hnodes, List.map_map]
        simpa [Function.comp_def] using here.names
      · rw [hnodes, List.forall_mem_map]
        simpa using here.distinct
      · intro value
        by_cases hresult : value ∈ g.results
        · have hne : value ≠ new := fun e => hnewResult (e ▸ hresult)
          have hne' : value ≠ old := fun e => hold (defines_iff.2 (.inr (e ▸ hresult)))
          refine single_of_map here.names (fun m hm => List.mem_map.1 (hnodes ▸ hm))
            (fun n _ => n.agreeOn_replaceReads hne' hne) (fun hmem => ?_) (here.single value)
          rw [substituteOuter_eq, if_neg hold] at hmem
          exact (mem_map_substituteName hmem).resolve_left (fun e => hne e.1) |>.1
        · left
          intro n hn _ _ hvalue
          exact absurd (results_substituteOuter old new g ▸ mem_results.2 ⟨n, hn, hvalue⟩) hresult
      · simpa using here.apart
      · simpa using here.newInputs
      · simpa using here.newResults
      · rw [hnodes]
        exact keyed_map_replaceReads here.keyed old new
      · intro n hn body hbody
        rw [hnodes] at hn
        obtain ⟨m, hm, rfl⟩ := List.mem_map.1 hn
        have htree : TidyTree (g.takenIn taken) body.2 := by
          obtain ⟨before, hbefore, -, hsame | ⟨-, hsame⟩⟩ := mem_bodies_replaceReads hbody
          · exact hsame ▸ hinside m hm before hbefore
          · exact hsame ▸ ih m hm before hbefore (hnew.imp_right .inl)
        refine htree.of_scope fun name _ htaken => ?_
        rcases htaken with htaken | hdef | ⟨hne, k, hk, hmem⟩
        · exact .inl htaken
        · exact .inr (.inl (by rwa [defines_substituteOuter] at hdef))
        · rw [hnodes] at hk
          obtain ⟨before, hbefore, rfl⟩ := List.mem_map.1 hk
          rcases Node.mem_inputs_replaceReads hmem with ⟨rfl, -⟩ | hmem
          · exact .inl (hnew.resolve_left hne)
          · exact .inr (.inr ⟨hne, before, hbefore, hmem⟩)

end Graph

end TensorGraph
