import TensorGraph.Proofs.Relocating

/-!
# Rearranged constants

Before a transposition moves behind an operator, the constants among the operands get other
entries, or copies of them do. Nothing else changes then, so that every node can still be found
at its place, and the operands of the operator are values that were mentioned before or copies.

## Main results

* `Relocation.Placing.tidyTree` -- a tree stays tidy when constants of its root are rearranged.
* `Relocation.Relocatable.fed` -- where an operator finds its operands afterwards.
-/

namespace TensorGraph

/-! ## Nodes with other plain attributes -/

/-- Two nodes that differ in plain attributes only, and in these only if they are constants. -/
structure Node.Like (n m : Node) : Prop where
  name : m.name = n.name
  op : m.op = n.op
  inputs : m.inputs = n.inputs
  outputs : m.outputs = n.outputs
  keyed : n.Keyed → m.Keyed
  bodies : ∀ body, body ∈ m.bodies ↔ body ∈ n.bodies
  other : n.op ≠ "Constant" → m = n

namespace Node.Like

variable {n m k : Node}

theorem refl (n : Node) : n.Like n := ⟨rfl, rfl, rfl, rfl, id, fun _ => Iff.rfl, fun _ => rfl⟩

theorem trans (h₁ : n.Like m) (h₂ : m.Like k) : n.Like k where
  name := h₂.name.trans h₁.name
  op := h₂.op.trans h₁.op
  inputs := h₂.inputs.trans h₁.inputs
  outputs := h₂.outputs.trans h₁.outputs
  keyed := h₂.keyed ∘ h₁.keyed
  bodies body := (h₂.bodies body).trans (h₁.bodies body)
  other h := by
    have hm := h₁.other h
    rw [h₂.other (by rwa [h₁.op]), hm]

theorem results (h : n.Like m) : m.results = n.results := by
  rw [Node.results, h.outputs, Node.results]

theorem mem_reads (h : n.Like m) {value : String} : value ∈ m.reads ↔ value ∈ n.reads := by
  rw [Node.mem_reads, Node.mem_reads, h.inputs]
  simp only [h.bodies]

end Node.Like

namespace Graph

/-! ## One more node -/

/-- A graph stays tidy when a node comes in that yields new values and reads values that are
yielded once at the most. -/
theorem Tidy.add {taken : String → Prop} {g h : Graph} (hg : Tidy taken g) {k : Node}
    (hnodes : h.nodes.Perm (k :: g.nodes)) (hinputs : h.inputs = g.inputs)
    (houtputs : h.outputs = g.outputs) (hname : ∀ n ∈ g.nodes, n.name ≠ k.name)
    (hdistinct : k.results.Nodup)
    (hresults : ∀ value ∈ k.results, value ∉ g.results ∧ value ∉ g.inputs ∧ ¬ taken value)
    (hreads : ∀ value ∈ k.reads, g.Once value) (hkeyed : k.Keyed) : Tidy taken h := by
  have hmem : ∀ n, n ∈ h.nodes ↔ n = k ∨ n ∈ g.nodes := by
    intro n
    rw [hnodes.mem_iff, List.mem_cons]
  have hfrom : ∀ value, value ∉ k.results → ∀ n ∈ h.nodes, value ∈ n.results → n ∈ g.nodes := by
    intro value hvalue n hn hvn
    rcases (hmem n).1 hn with rfl | hn
    · exact absurd hvn hvalue
    · exact hn
  refine hg.of_nodes hinputs ?_ (fun n hn => ?_) (fun value => ?_) (fun value hvalue => ?_)
    fun n hn => ?_
  · refine (hnodes.map Node.name).nodup_iff.2 (List.nodup_cons.2 ⟨fun hused => ?_, hg.names⟩)
    obtain ⟨n, hn, heq⟩ := List.mem_map.1 hused
    exact hname n hn heq
  · rcases (hmem n).1 hn with rfl | hn
    · exact hdistinct
    · exact hg.distinct n hn
  · by_cases hvalue : value ∈ k.results
    · refine .inl (.of_name k.name fun n hn hvn => ?_)
      rcases (hmem n).1 hn with rfl | hn
      · rfl
      · exact absurd (mem_results.2 ⟨n, hn, hvn⟩) (hresults value hvalue).1
    by_cases honce : g.Once value
    · exact .inl fun n hn m hm hvn hvm =>
        honce n (hfrom value hvalue n hn hvn) m (hfrom value hvalue m hm hvm) hvn hvm
    · obtain ⟨hinside, l, hl, hop, hin, hout, hreaders, constant, hmakers⟩ :=
        (hg.single value).resolve_left honce
      refine .inr ⟨by rwa [houtputs], l, (hmem l).2 (.inr hl), hop, hin, hout, fun n hn hread => ?_,
        constant, fun n hn hvn => hmakers n (hfrom value hvalue n hn hvn) hvn⟩
      rcases (hmem n).1 hn with rfl | hn
      · exact absurd (hreads value hread) honce
      · exact hreaders n hn hread
  · obtain ⟨n, hn, hvn⟩ := mem_results.1 hvalue
    rcases (hmem n).1 hn with rfl | hn
    · exact .inr (hresults value hvn).2
    · exact .inl (mem_results.2 ⟨n, hn, hvn⟩)
  · rcases (hmem n).1 hn with rfl | hn
    · exact hkeyed
    · exact hg.keyed n hn

/-- A tree stays tidy when a constant comes in whose name is new. -/
theorem TidyTree.addConstant {taken : String → Prop} {g h : Graph} (hg : TidyTree taken g)
    {target : String} {value : Literal} (hnodes : h.nodes = g.nodes ++ [.constant target target value])
    (hinputs : h.inputs = g.inputs) (houtputs : h.outputs = g.outputs) (htaken : ¬ taken target)
    (hnew : target ∉ g.names) : TidyTree taken h := by
  have hmem : ∀ n, n ∈ h.nodes ↔ n ∈ g.nodes ∨ n = .constant target target value := by
    intro n
    rw [hnodes, List.mem_append, List.mem_singleton]
  have hresults : ∀ other ∈ (Node.constant target target value).results, other = target :=
    fun other hother => List.mem_singleton.1 (Node.mem_results.1 hother).1
  have hroot : Tidy taken h := by
    have hperm : h.nodes.Perm (.constant target target value :: g.nodes) := by
      rw [hnodes]
      exact List.perm_append_singleton _ _
    refine hg.here.add hperm hinputs houtputs
      (fun n hn heq => hnew ?_) ((List.nodup_singleton _).filter _) (fun other hother => ?_)
      (fun other hother => by cases hother) (List.nodup_singleton _)
    · have hused := mem_names_of_mem_node hn (.inl rfl)
      rwa [heq] at hused
    · rw [hresults other hother]
      exact ⟨fun h => hnew (mem_names_of_mem_results h), fun h => hnew (mem_names_of_mem_inputs h),
        htaken⟩
  refine hg.of_root hroot (fun other hmention => ?_) fun n hn body hbody => ?_
  · rcases hmention with hdef | ⟨hne, n, hn, hvn⟩
    · rcases defines_iff.1 hdef with hother | hother
      · exact .inl (.inl (defines_iff.2 (.inl (hinputs ▸ hother))))
      · obtain ⟨n, hn, hvn⟩ := mem_results.1 hother
        rcases (hmem n).1 hn with hn | rfl
        · exact .inl (.inl (defines_iff.2 (.inr (mem_results.2 ⟨n, hn, hvn⟩))))
        · exact .inr (hresults other hvn ▸ hnew)
    · rcases (hmem n).1 hn with hn | rfl
      · exact .inl (.inr ⟨hne, n, hn, hvn⟩)
      · cases hvn
  · rcases (hmem n).1 hn with hn | rfl
    · exact ⟨n, hn, rfl, body, hbody, rfl, .refl⟩
    · cases hbody

end Graph

namespace Relocation

open TensorGraph.Graph Transposes

/-! ## Rearranged constants -/

theorem like_refilled {g : Graph} {name : String} {place : Nat} {n : Node}
    (hn : IsConstant g name place n) (hkeyed : n.Keyed) (permuted : Literal) :
    n.Like (refilled n permuted) where
  name := rfl
  op := rfl
  inputs := rfl
  outputs := rfl
  keyed h := Attributes.nodup_set h _ _
  bodies body := by
    obtain ⟨literal, hliteral⟩ := hn.constant
    obtain ⟨-, -, -, hvalue⟩ := constant?_eq_some hliteral
    rw [Node.mem_bodies (n := refilled n permuted), Node.mem_bodies]
    exact ⟨Attributes.mem_of_mem_set rfl, Attributes.mem_set_of_mem hkeyed hvalue rfl⟩
  other h := absurd hn.op h

/-- Whether a node is a copy of a constant under a name that is new. -/
def Copied (s : Surroundings) (g : Graph) (m : Node) : Prop :=
  ∃ target literal, (Node.constant target target literal).Like m ∧ target ≠ "" ∧
    target ∉ s.reserved ∧ target ∉ g.names

namespace Copied

variable {s : Surroundings} {g : Graph} {m : Node}

theorem op (hm : Copied s g m) : m.op = "Constant" := by
  obtain ⟨target, literal, hlike, -⟩ := hm
  exact hlike.op

theorem name_not_mem (hm : Copied s g m) : m.name ∉ g.names := by
  obtain ⟨target, literal, hlike, -, -, hnew⟩ := hm
  rwa [hlike.name]

end Copied

/-- What becomes of a graph when constants are rearranged in it. -/
structure Enriched (s : Surroundings) (g h : Graph) : Prop where
  inputs : h.inputs = g.inputs
  outputs : h.outputs = g.outputs
  names : g.names ⊆ h.names
  kept : ∀ (place : Nat) (n : Node), g.nodes[place]? = some n →
    ∃ m, h.nodes[place]? = some m ∧ n.Like m
  origin : ∀ (place : Nat) (m : Node), h.nodes[place]? = some m →
    (∃ n, g.nodes[place]? = some n ∧ n.Like m) ∨ Copied s g m

namespace Enriched

variable {s : Surroundings} {g h k : Graph}

theorem refl (s : Surroundings) (g : Graph) : Enriched s g g where
  inputs := rfl
  outputs := rfl
  names := List.Subset.refl _
  kept _ n hn := ⟨n, hn, .refl n⟩
  origin _ m hm := .inl ⟨m, hm, .refl m⟩

theorem trans (h₁ : Enriched s g h) (h₂ : Enriched s h k) : Enriched s g k where
  inputs := h₂.inputs.trans h₁.inputs
  outputs := h₂.outputs.trans h₁.outputs
  names := List.Subset.trans h₁.names h₂.names
  kept place n hn := by
    obtain ⟨m, hm, hlike⟩ := h₁.kept place n hn
    obtain ⟨l, hl, hlike'⟩ := h₂.kept place m hm
    exact ⟨l, hl, hlike.trans hlike'⟩
  origin place l hl := by
    rcases h₂.origin place l hl with ⟨m, hm, hlike⟩ |
      ⟨target, literal, hlike, hpresent, hreserved, hnew⟩
    · rcases h₁.origin place m hm with ⟨n, hn, hlike'⟩ | ⟨target, literal, hlike', hnew⟩
      · exact .inl ⟨n, hn, hlike'.trans hlike⟩
      · exact .inr ⟨target, literal, hlike'.trans hlike, hnew⟩
    · exact .inr ⟨target, literal, hlike, hpresent, hreserved, fun hmem => hnew (h₁.names hmem)⟩

/-- Nodes other than constants stay as they are. -/
theorem getElem? (he : Enriched s g h) {place : Nat} {n : Node} (hn : g.nodes[place]? = some n)
    (hop : n.op ≠ "Constant") : h.nodes[place]? = some n := by
  obtain ⟨m, hm, hlike⟩ := he.kept place n hn
  rw [hm, hlike.other hop]

theorem mem_results (he : Enriched s g h) {value : String} (hvalue : value ∈ g.results) :
    value ∈ h.results := by
  obtain ⟨n, hn, hvn⟩ := Graph.mem_results.1 hvalue
  obtain ⟨place, hplace⟩ := List.getElem?_of_mem hn
  obtain ⟨m, hm, hlike⟩ := he.kept place n hplace
  exact Graph.mem_results.2 ⟨m, List.mem_of_getElem? hm, by rwa [hlike.results]⟩

theorem mentions (he : Enriched s g h) {value : String} (hvalue : g.Mentions value) :
    h.Mentions value := by
  rcases hvalue with hdef | ⟨hne, n, hn, hvn⟩
  · rw [defines_iff] at hdef
    exact .inl (defines_iff.2 (hdef.imp (fun hin => he.inputs ▸ hin) he.mem_results))
  · obtain ⟨place, hplace⟩ := List.getElem?_of_mem hn
    obtain ⟨m, hm, hlike⟩ := he.kept place n hplace
    exact .inr ⟨hne, m, List.mem_of_getElem? hm, by rwa [hlike.inputs]⟩

/-- A value that was not in use and is mentioned comes from a copy. -/
theorem copied_of_mentions (he : Enriched s g h) {value : String} (hvalue : h.Mentions value)
    (hnew : value ∉ g.names) : ∃ m ∈ h.nodes, Copied s g m ∧ value ∈ m.results := by
  rcases hvalue with hdef | ⟨hne, m, hm, hin⟩
  · rcases defines_iff.1 hdef with hin | hresult
    · exact absurd (mem_names_of_mem_inputs (he.inputs ▸ hin)) hnew
    · obtain ⟨m, hm, hvm⟩ := Graph.mem_results.1 hresult
      obtain ⟨i, hi⟩ := List.getElem?_of_mem hm
      rcases he.origin i m hi with ⟨n, hn, hlike⟩ | hcopied
      · rw [hlike.results] at hvm
        exact absurd (mem_names_of_mem_results
          (Graph.mem_results.2 ⟨n, List.mem_of_getElem? hn, hvm⟩)) hnew
      · exact ⟨m, hm, hcopied, hvm⟩
  · obtain ⟨i, hi⟩ := List.getElem?_of_mem hm
    rcases he.origin i m hi with ⟨n, hn, hlike⟩ | ⟨target, literal, hlike, -⟩
    · rw [hlike.inputs] at hin
      exact absurd (mem_names_of_mem_node (List.mem_of_getElem? hn) (.inr (.inl hin))) hnew
    · rw [hlike.inputs] at hin
      cases hin

end Enriched

namespace ConstantPut

variable {taken : String → Prop} {s : Surroundings} {g h : Graph} {name target : String}
  {place : Nat} {n : Node} {permuted : Literal}

theorem enriched (hput : ConstantPut s g name place n permuted target h)
    (hn : IsConstant g name place n) (hkeyed : n.Keyed) : Enriched s g h := by
  have hlt := (List.getElem?_eq_some_iff.1 hn.node).1
  have hlike := like_refilled hn hkeyed permuted
  cases hput with
  | copied hnew hpresent =>
      refine ⟨rfl, rfl, ?_, fun j m hm => ⟨m, ?_, .refl m⟩, fun j m hm => ?_⟩
      · refine names_subset (List.Subset.refl _) (List.Subset.refl _)
          (fun _ hname => InfoTable.mem_names_set.2 (.inl hname)) fun m hm =>
          ⟨m, List.mem_append_left _ hm, rfl, ?_, ?_, ?_⟩ <;> exact List.Subset.refl _
      · exact (List.getElem?_append_left (List.getElem?_eq_some_iff.1 hm).1).trans hm
      · have hm : (g.nodes ++ [Node.constant target target permuted])[j]? = some m := hm
        by_cases hj : j < g.nodes.length
        · rw [List.getElem?_append_left hj] at hm
          exact .inl ⟨m, hm, .refl m⟩
        · rw [List.getElem?_append_right (Nat.le_of_not_lt hj)] at hm
          obtain rfl := List.mem_singleton.1 (List.mem_of_getElem? hm)
          exact .inr ⟨target, permuted, .refl _, hpresent, hnew⟩
  | changed halone hinside =>
      have hset (j : Nat) : (g.nodes.set place (refilled n permuted))[j]? =
          if j = place then some (refilled n permuted) else g.nodes[j]? := by
        by_cases hj : j = place
        · rw [if_pos hj, hj, List.getElem?_set_self hlt]
        · rw [if_neg hj, List.getElem?_set_ne fun e => hj e.symm]
      refine ⟨rfl, rfl, ?_, fun j m hm => ?_, fun j m hm => ?_⟩
      · refine names_subset (List.Subset.refl _) (List.Subset.refl _)
          (fun _ hname => InfoTable.mem_names_set.2 (.inl hname)) fun m hm => ?_
        rcases eq_or_elsewhere hn.node hm with rfl | hother
        · exact ⟨_, (mem_set_iff hlt).2 (.inl rfl), rfl, List.Subset.refl _, List.Subset.refl _,
            fun body => (hlike.bodies body).2⟩
        · exact ⟨m, (mem_set_iff hlt).2 (.inr hother), rfl, List.Subset.refl _,
            List.Subset.refl _, List.Subset.refl _⟩
      · by_cases hj : j = place
        · obtain rfl : n = m := Option.some.inj (hn.node.symm.trans (hj ▸ hm))
          exact ⟨_, (hset j).trans (if_pos hj), hlike⟩
        · exact ⟨m, ((hset j).trans (if_neg hj)).trans hm, .refl m⟩
      · have hm := (hset j).symm.trans hm
        split at hm
        · rename_i hj
          cases hm
          exact .inl ⟨n, hj ▸ hn.node, hlike⟩
        · exact .inl ⟨m, hm, .refl m⟩

/-- The rearranged constant is found under the name that it got. -/
theorem target_mem (hput : ConstantPut s g name place n permuted target h)
    (hn : IsConstant g name place n) :
    (target = "" ∨ target ∈ h.results) ∧
      (target = name ∨ target ∉ s.reserved ∧ target ∉ g.names) := by
  rw [or_iff_not_imp_left]
  cases hput with
  | copied hnew =>
      refine ⟨fun hne => Graph.mem_results.2 ⟨Node.constant target target permuted,
        List.mem_append_right _ (List.mem_singleton_self _), ?_⟩, .inr hnew⟩
      exact Node.mem_results.2 ⟨List.mem_singleton_self _, hne⟩
  | changed =>
      refine ⟨fun hne => Graph.mem_results.2 ⟨refilled n permuted, ?_, ?_⟩, .inl rfl⟩
      · exact (mem_set_iff (List.getElem?_eq_some_iff.1 hn.node).1).2 (.inl rfl)
      · exact Node.mem_results.2 ⟨by simp [refilled, hn.outputs], hne⟩

theorem tidyTree (hput : ConstantPut s g name place n permuted target h) (hg : TidyTree taken g)
    (hcovers : ∀ value, taken value → value ∈ s.reserved) (hn : IsConstant g name place n) :
    TidyTree taken h := by
  have hlike := like_refilled hn (hg.here.keyed n hn.mem) permuted
  cases hput with
  | copied hnew =>
      exact hg.addConstant rfl rfl rfl (fun htaken => hnew.1 (hcovers _ htaken)) hnew.2
  | changed =>
      have hr : Replaced g place n (refilled n permuted)
          ((g.putNode place (refilled n permuted)).setInfo (literalInfo name permuted)) :=
        { node := hn.node
          name := rfl
          outputs := rfl
          agree := fun value _ => ⟨rfl, fun _ => rfl, id, hlike.mem_reads.1, Iff.rfl⟩
          keyed := hlike.keyed
          bodies := fun body => (hlike.bodies body).1
          reads := fun value hvalue => by
            have hvalue : value ∈ n.inputs := hvalue
            rw [hn.inputs] at hvalue
            cases hvalue
          inputs := rfl
          yielded := rfl
          nodes := rfl }
      exact hr.tidyTree hg

end ConstantPut

namespace Placing

variable {taken : String → Prop} {s : Surroundings} {g h : Graph} {operands : List Operand}
  {placed later : List (String × String)}

theorem tidyTree (hp : Placing s operands g placed h later) (hg : TidyTree taken g)
    (hcovers : ∀ value, taken value → value ∈ s.reserved) :
    TidyTree taken h ∧ Enriched s g h := by
  induction hp with
  | done => exact ⟨hg, .refl s _⟩
  | value _ ih => exact ih hg
  | again _ _ ih => exact ih hg
  | put _ hn hput _ ih =>
      have hfirst := hput.enriched hn (hg.here.keyed _ hn.mem)
      obtain ⟨htree, hrest⟩ := ih (hput.tidyTree hg hcovers hn)
      exact ⟨htree, hfirst.trans hrest⟩

/-- What is found under the name of a constant that has been placed. -/
theorem lookup (hp : Placing s operands g placed h later) (hg : TidyTree taken g)
    (hcovers : ∀ value, taken value → value ∈ s.reserved) {name target : String}
    (hfound : later.lookup name = some target) :
    placed.lookup name = some target ∨ (target = "" ∨ target ∈ h.results) ∧
      (target = name ∨ target ∉ s.reserved ∧ target ∉ g.names) := by
  induction hp with
  | done => exact .inl hfound
  | value _ ih => exact ih hg hfound
  | again _ _ ih => exact ih hg hfound
  | put _ hn hput hnext ih =>
      have hbetween := hput.tidyTree hg hcovers hn
      have hfirst := hput.enriched hn (hg.here.keyed _ hn.mem)
      have hrest := (hnext.tidyTree hbetween hcovers).2
      rcases ih hbetween hfound with hknown | ⟨hresult, hnew⟩
      · rw [lookup_append_singleton, Option.or_eq_some_iff] at hknown
        rcases hknown with hknown | ⟨-, hknown⟩
        · exact .inl hknown
        · right
          split at hknown
          · rename_i hname
            obtain rfl := Option.some.inj hknown
            rw [hname]
            exact (hput.target_mem hn).imp_left (Or.imp_right hrest.mem_results)
          · cases hknown
      · refine .inr ⟨hresult, hnew.imp_right fun hnew => ⟨hnew.1, fun hmem => hnew.2 ?_⟩⟩
        exact hfirst.names hmem

end Placing

/-! ## Operands -/

/-- Where an operator that changes places with a transposition finds an operand afterwards. -/
inductive Fed (s : Surroundings) (g : Graph) (consumer : Node) : String → Prop
  /-- Before a transposition that the operator read. -/
  | before {n : Node} {value input : String} (mem : n ∈ g.nodes) (op : n.op = "Transpose")
      (inputs : n.inputs = [value]) (read : input ∈ consumer.inputs) (result : input ∈ n.results) :
      Fed s g consumer value
  /-- At a constant that it read, or at a copy of one. -/
  | constant {n : Node} {value name : String} (mem : n ∈ g.nodes) (op : n.op = "Constant")
      (read : name ∈ consumer.inputs) (result : name ∈ n.results)
      (target : value = name ∨ value ∉ s.reserved ∧ value ∉ g.names) : Fed s g consumer value

namespace Planned

variable {s : Surroundings} {g : Graph} {source transposed : String} {perm : List Nat}
  {policy : ConstantPolicy} {input : String}

theorem isConstant {name : String} {place : Nat} {n : Node} {permuted : Literal}
    (hp : Planned s g source transposed perm policy input (.constant name place n permuted)) :
    IsConstant g name place n := by
  cases hp with
  | constant _ present hplace hproducer hconstant =>
      obtain ⟨m, hm, hvalue⟩ := producerPlace?_mem hplace
      rw [producer?_eq, hplace, Option.bind_some, hm] at hproducer
      cases hproducer
      refine ⟨hm, ⟨_, hconstant⟩, ?_⟩
      have houtputs := (constant?_eq_some hconstant).2.2.1
      rw [Node.mem_results, houtputs] at hvalue
      rw [houtputs, ← List.mem_singleton.1 hvalue.1]

end Planned

/-- How an operator lets a transposition through sets one of its attributes at the most. -/
theorem passage?_attributes {consumer : Node} {perm : List Number} {policy : ConstantPolicy}
    {attributes : List (String × Attribute)} (h : passage? consumer perm = some (policy, attributes)) :
    attributes = consumer.attributes ∨ ∃ key value, value.body? = none ∧
      attributes = Attributes.set consumer.attributes key value := by
  unfold passage? at h
  split at h
  · split at h <;> cases h
    exact .inl rfl
  · cases h
    exact .inl rfl
  · split at h
    · cases h
    · obtain ⟨remapped, hremapped, heq⟩ := Option.map_eq_some_iff.1 h
      cases heq
      unfold remapAxes at hremapped
      simp only at hremapped
      split at hremapped
      · cases hremapped
      · split at hremapped
        · cases hremapped
          exact .inl rfl
        · obtain ⟨axis, -, rfl⟩ := Option.map_eq_some_iff.1 hremapped
          exact .inr ⟨_, _, rfl, rfl⟩
        · obtain ⟨axes, -, rfl⟩ := Option.map_eq_some_iff.1 hremapped
          exact .inr ⟨_, _, rfl, rfl⟩
        · cases hremapped
  · cases h
  · cases h

/-- An operator that lets a transposition through is transparent, and its bodies stay. -/
theorem passage?_eq_some {consumer : Node} {perm : List Number} {policy : ConstantPolicy}
    {attributes : List (String × Attribute)} (h : passage? consumer perm = some (policy, attributes)) :
    Capability.isTransparent consumer.op = true ∧
      (consumer.Keyed → (attributes.map Prod.fst).Nodup) ∧
      ∀ key body, (key, Attribute.body body) ∈ attributes →
        (key, Attribute.body body) ∈ consumer.attributes := by
  have htransparent : Capability.ofOp consumer.op ≠ .barrier := by
    intro hbarrier
    simp [passage?, hbarrier] at h
  refine ⟨by simpa [Capability.isTransparent] using htransparent, ?_⟩
  rcases passage?_attributes h with rfl | ⟨key, value, hvalue, rfl⟩
  · exact ⟨id, fun _ _ => id⟩
  · exact ⟨fun hkeyed => Attributes.nodup_set hkeyed key value,
      fun _ _ => Attributes.mem_of_mem_set hvalue⟩

theorem transparent_ne {op : String} (h : Capability.isTransparent op = true) :
    op ≠ "Transpose" ∧ op ≠ "Constant" ∧ op ≠ "Gather" := by
  refine ⟨?_, ?_, ?_⟩ <;> rintro rfl <;> revert h <;> decide

/-! ## The outcome -/

/-- The conditions under which an operator changes places with a transposition. -/
structure Relocatable (s : Surroundings) (g : Graph) (t : PlacedTranspose) (place : Nat)
    (consumer : Node) (policy : ConstantPolicy) (attributes : List (String × Attribute))
    (p : Plan) : Prop where
  stands : t.Stands s g
  node : g.nodes[place]? = some consumer
  outputs : consumer.outputs = [consumer.outputs.headD ""]
  present : t.output ≠ ""
  reads : t.output ∈ consumer.inputs
  passage : passage? consumer t.spelled = some (policy, attributes)
  operands : List.Forall₂ (Planned s g t.source t.output t.perm policy) consumer.inputs p.operands
  absorbed : ∀ name ∈ p.absorbed, Transposing g name

namespace Relocatable

variable {s : Surroundings} {g : Graph} {t : PlacedTranspose} {place : Nat} {consumer : Node}
  {policy : ConstantPolicy} {attributes : List (String × Attribute)} {p : Plan}

theorem mem (hr : Relocatable s g t place consumer policy attributes p) : consumer ∈ g.nodes :=
  List.mem_of_getElem? hr.node

theorem op (hr : Relocatable s g t place consumer policy attributes p) :
    consumer.op ≠ "Transpose" ∧ consumer.op ≠ "Constant" ∧ consumer.op ≠ "Gather" :=
  transparent_ne (passage?_eq_some hr.passage).1

theorem ne (hr : Relocatable s g t place consumer policy attributes p) : consumer ≠ t.node := by
  intro e
  exact hr.op.1 (e ▸ hr.stands.op)

theorem place_ne (hr : Relocatable s g t place consumer policy attributes p) : t.place ≠ place := by
  intro e
  exact hr.ne (Option.some.inj (hr.node.symm.trans (e ▸ hr.stands.node)))

theorem mem_output (hr : Relocatable s g t place consumer policy attributes p) :
    t.output ∈ t.node.results :=
  Node.mem_results.2 ⟨by simp [hr.stands.outputs], hr.present⟩

/-- Every operand stands in the place of an input. -/
theorem exists_planned (hr : Relocatable s g t place consumer policy attributes p)
    {operand : Operand} (hmem : operand ∈ p.operands) :
    ∃ input ∈ consumer.inputs, Planned s g t.source t.output t.perm policy input operand := by
  obtain ⟨i, hi⟩ := List.getElem?_of_mem hmem
  obtain ⟨hlt, rfl⟩ := List.getElem?_eq_some_iff.1 hi
  have hlt' : i < consumer.inputs.length := by rw [hr.operands.length_eq]; exact hlt
  exact ⟨consumer.inputs.get ⟨i, hlt'⟩, List.get_mem _ _, hr.operands.get hlt' hlt⟩

theorem isConstant (hr : Relocatable s g t place consumer policy attributes p) {name : String}
    {constantPlace : Nat} {n : Node} {permuted : Literal}
    (hmem : .constant name constantPlace n permuted ∈ p.operands) :
    IsConstant g name constantPlace n := by
  obtain ⟨input, -, hplanned⟩ := hr.exists_planned hmem
  exact hplanned.isConstant

/-- A constant among the operands is an input of the operator. -/
theorem constant_mem (hr : Relocatable s g t place consumer policy attributes p) {name : String}
    {constantPlace : Nat} {n : Node} {permuted : Literal}
    (hmem : .constant name constantPlace n permuted ∈ p.operands) :
    name ∈ consumer.inputs ∧ name ≠ "" := by
  obtain ⟨input, hinput, hplanned⟩ := hr.exists_planned hmem
  cases hplanned with
  | constant _ present => exact ⟨hinput, present⟩

/-- Where the rebuilt operator finds its operands. -/
theorem fed (hr : Relocatable s g t place consumer policy attributes p) {taken : String → Prop}
    (hg : TidyTree taken g) (hcovers : ∀ value, taken value → value ∈ s.reserved) {arranged : Graph}
    {placed : List (String × String)} (hp : Placing s p.operands g [] arranged placed)
    {value : String} (hvalue : value ∈ p.operands.map (Operand.inputName placed)) :
    Fed s g consumer value ∧ (value = "" ∨ arranged.Mentions value) := by
  have hmentions := (hp.tidyTree hg hcovers).2
  obtain ⟨operand, hoperand, rfl⟩ := List.mem_map.1 hvalue
  obtain ⟨input, hread, hplanned⟩ := hr.exists_planned hoperand
  -- a value that some node of the graph reads is mentioned there
  have hinput : ∀ n ∈ g.nodes, ∀ other, n.inputs = [other] → other = "" ∨ arranged.Mentions other := by
    intro n hn other hin
    by_cases hne : other = ""
    · exact .inl hne
    · exact .inr (hmentions.mentions (.inr ⟨hne, n, hn, by simp [hin]⟩))
  cases hplanned with
  | moved =>
      exact ⟨.before hr.stands.mem hr.stands.op hr.stands.inputs hread hr.mem_output,
        hinput _ hr.stands.mem _ hr.stands.inputs⟩
  | sibling _ present producer resolved _ inputs =>
      obtain ⟨hmem, hresult⟩ := producer?_eq_some producer
      exact ⟨.before hmem (resolvePermutation_ok resolved).1 inputs hread hresult,
        hinput _ hmem _ inputs⟩
  | @constant _ found n _ _ permuted other present place_eq producer constant fits padded_eq
      permuted_eq =>
      have hplan : Planned s g t.source t.output t.perm policy input _ :=
        .constant other present place_eq producer constant fits padded_eq permuted_eq
      have hn := hplan.isConstant
      have hresult : input ∈ _ := Node.mem_results.2 ⟨by rw [hn.outputs]; simp, present⟩
      have hmention : arranged.Mentions input := hmentions.mentions
        (.inl (defines_iff.2 (.inr (Graph.mem_results.2 ⟨_, hn.mem, hresult⟩))))
      have hname : Operand.inputName placed (.constant input found n permuted) =
          (placed.lookup input).getD input := rfl
      rw [hname]
      cases hlookup : placed.lookup input with
      | none => exact ⟨.constant hn.mem hn.op hread hresult (.inl rfl), .inr hmention⟩
      | some target =>
          obtain ⟨htarget, hnew⟩ := (hp.lookup hg hcovers hlookup).resolve_left (by simp)
          exact ⟨.constant hn.mem hn.op hread hresult hnew,
            htarget.imp_right fun h => .inl (defines_iff.2 (.inr h))⟩

end Relocatable

end Relocation

end TensorGraph
