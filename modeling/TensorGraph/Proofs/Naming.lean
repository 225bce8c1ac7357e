import Mathlib.Data.List.Flatten
import Mathlib.Data.List.Nodup
import Mathlib.Data.List.Perm.Basic
import TensorGraph.Graph.Edit

/-!
# Names in a tree of graphs

What a graph and its bodies may see of each other is a matter of names. `Graph.Everywhere`
says something of every graph of a tree together with the names that count around it.

The values of a node are its `results`: an absent output is none.

## Main results

* `Graph.Everywhere.imp` -- what follows in every graph follows everywhere.
* `Graph.defines_substituteOuter` -- a substitution leaves alone what a graph defines.
* `Node.mem_reads_replaceReads` -- what a node reads after a substitution.
-/

namespace TensorGraph

/-! ## Entries under keys -/

section Entries

variable {α : Type} {entries : List (String × α)} {key : String} {value : α}

theorem mem_of_lookup (h : entries.lookup key = some value) : (key, value) ∈ entries := by
  obtain ⟨before, after, rfl, -⟩ := List.lookup_eq_some_iff.1 h
  simp

theorem lookup_of_mem (h : (entries.map Prod.fst).Nodup) (hmem : (key, value) ∈ entries) :
    entries.lookup key = some value := by
  induction entries with
  | nil => cases hmem
  | cons entry rest ih =>
      obtain ⟨hnew, hrest⟩ := List.nodup_cons.1 h
      rw [List.lookup_cons]
      rcases List.mem_cons.1 hmem with rfl | hmem
      · simp
      · have hne : (key == entry.1) = false :=
          beq_false_of_ne fun e => hnew (e ▸ List.mem_map_of_mem hmem)
        rw [hne]
        exact ih hrest hmem

end Entries

/-! ## Bodies among attributes -/

/-- The attribute with the body graph in it changed by `f`. -/
def Attribute.mapBody (f : Graph → Graph) : Attribute → Attribute
  | .body g => .body (f g)
  | value => value

namespace Attributes

/-- Replacing the bodies by their images is changing them where they stand. -/
theorem withBodies_map (f : Graph → Graph) (attributes : List (String × Attribute)) :
    withBodies attributes
        ((attributes.filterMap fun (key, value) => value.body?.map (key, ·)).map
          fun body => f body.2) =
      attributes.map fun entry => (entry.1, entry.2.mapBody f) := by
  induction attributes with
  | nil => rfl
  | cons entry rest ih =>
      obtain ⟨key, value⟩ := entry
      cases value <;> simp_all [withBodies, Attribute.body?, Attribute.mapBody]

theorem bodies_mapBody (f : Graph → Graph) (attributes : List (String × Attribute)) :
    ((attributes.map fun entry => (entry.1, entry.2.mapBody f)).filterMap
        fun (key, value) => value.body?.map (key, ·)) =
      (attributes.filterMap fun (key, value) => value.body?.map (key, ·)).map
        fun body => (body.1, f body.2) := by
  rw [List.filterMap_map, List.map_filterMap]
  refine List.filterMap_congr fun entry _ => ?_
  obtain ⟨key, value⟩ := entry
  cases value <;> rfl

theorem lookup_mapBody (f : Graph → Graph) (attributes : List (String × Attribute))
    (key : String) :
    (attributes.map fun entry => (entry.1, entry.2.mapBody f)).lookup key =
      (attributes.lookup key).map (Attribute.mapBody f) := by
  induction attributes with
  | nil => rfl
  | cons entry rest ih =>
      rw [List.map_cons, List.lookup_cons, List.lookup_cons, ih]
      split <;> rfl

theorem map_fst_set (attributes : List (String × Attribute)) (key : String) (value : Attribute) :
    (set attributes key value).map Prod.fst =
      if key ∈ attributes.map Prod.fst then attributes.map Prod.fst
      else attributes.map Prod.fst ++ [key] := by
  have hany : attributes.any (·.1 == key) = decide (key ∈ attributes.map Prod.fst) := by
    by_cases hkey : key ∈ attributes.map Prod.fst
    · obtain ⟨entry, hentry, rfl⟩ := List.mem_map.1 hkey
      simpa [hkey] using ⟨_, hentry⟩
    · simp only [hkey, decide_false, List.any_eq_false]
      exact fun entry hentry e => hkey (eq_of_beq e ▸ List.mem_map_of_mem hentry)
  unfold set
  by_cases hkey : key ∈ attributes.map Prod.fst
  · rw [hany, if_pos (by simpa using hkey), if_pos hkey, List.map_map]
    refine List.map_congr_left fun entry _ => ?_
    simp only [Function.comp_apply]
    split <;> rfl
  · rw [hany, if_neg (by simpa using hkey), if_neg hkey]
    simp

/-- Setting an attribute keeps keys distinct. -/
theorem nodup_set {attributes : List (String × Attribute)}
    (h : (attributes.map Prod.fst).Nodup) (key : String) (value : Attribute) :
    ((set attributes key value).map Prod.fst).Nodup := by
  rw [map_fst_set]
  split
  · exact h
  · rename_i hkey
    refine List.nodup_append.2 ⟨h, by simp, fun k hk other hother e => hkey ?_⟩
    rwa [← List.mem_singleton.1 hother, ← e]

/-- An attribute that is set takes no body in. -/
theorem mem_of_mem_set {attributes : List (String × Attribute)} {key k : String}
    {value : Attribute} {body : Graph} (hvalue : value.body? = none)
    (h : (k, Attribute.body body) ∈ set attributes key value) :
    (k, Attribute.body body) ∈ attributes := by
  have hne : ∀ other : String, (k, Attribute.body body) ≠ (other, value) := by
    rintro other heq
    cases heq
    cases hvalue
  unfold set at h
  split at h
  · obtain ⟨⟨k', v⟩, hmem, heq⟩ := List.mem_map.1 h
    simp only at heq
    split at heq
    · exact absurd heq.symm (hne _)
    · exact heq ▸ hmem
  · rcases List.mem_append.1 h with h | h
    · exact h
    · exact absurd (List.mem_singleton.1 h) (hne key)

/-- Nor does it push a body out, if there was none under its key. -/
theorem mem_set_of_mem {attributes : List (String × Attribute)} {key k : String}
    {value old : Attribute} {body : Graph} (hkeyed : (attributes.map Prod.fst).Nodup)
    (hold : attributes.lookup key = some old) (hbody : old.body? = none)
    (h : (k, Attribute.body body) ∈ attributes) :
    (k, Attribute.body body) ∈ set attributes key value := by
  obtain ⟨before, after, hsplit, -⟩ := List.lookup_eq_some_iff.1 hold
  have hmem : (key, old) ∈ attributes := by simp [hsplit]
  have hne : k ≠ key := by
    rintro rfl
    have heq := List.inj_on_of_nodup_map hkeyed h hmem rfl
    cases heq
    cases hbody
  unfold set
  split
  · exact List.mem_map.2 ⟨_, h, by simp [hne]⟩
  · exact List.mem_append_left _ h

end Attributes

namespace Node

/-- Whether no key occurs twice among the attributes, as in any record. This is said of a node and not by
its type: graphs are among its attributes, and their type cannot ask anything of a list in which it
occurs. Whatever is read from a text has it. -/
def Keyed (n : Node) : Prop := (n.attributes.map Prod.fst).Nodup

instance (n : Node) : Decidable n.Keyed := inferInstanceAs (Decidable (List.Nodup _))

/-- The values that a node yields. An absent output is none. -/
def results (n : Node) : List String := n.outputs.filter (· != "")

theorem mem_results {n : Node} {value : String} :
    value ∈ n.results ↔ value ∈ n.outputs ∧ value ≠ "" := by
  simp [results]

theorem produces_iff {n : Node} {value : String} :
    n.produces value = true ↔ value ∈ n.results := by
  simp [produces, mem_results, and_comm]

theorem mem_reads {n : Node} {value : String} :
    value ∈ n.reads ↔
      (value ∈ n.inputs ∧ value ≠ "") ∨ ∃ body ∈ n.bodies, value ∈ body.2.outerReferences := by
  simp [reads]

theorem ne_empty_of_mem_reads {n : Node} {value : String} (h : value ∈ n.reads) :
    value ≠ "" := by
  rcases mem_reads.1 h with ⟨-, hne⟩ | ⟨body, -, hmem⟩
  · exact hne
  · exact (Graph.mem_outerReferences.1 hmem).1

theorem ne_empty_of_mem_results {n : Node} {value : String} (h : value ∈ n.results) :
    value ≠ "" :=
  (mem_results.1 h).2

/-- A body is found under its key. -/
theorem mem_bodies {n : Node} {key : String} {body : Graph} :
    (key, body) ∈ n.bodies ↔ (key, Attribute.body body) ∈ n.attributes := by
  unfold bodies
  rw [List.mem_filterMap]
  constructor
  · rintro ⟨⟨k, value⟩, hmem, heq⟩
    cases value <;> simp_all [Attribute.body?]
  · intro h
    exact ⟨_, h, rfl⟩

/-! ## Reading other names -/

/-- A node that reads `old`, after a substitution. -/
theorem replaceReads_of_mem {n : Node} {old new : String} (h : old ∈ n.reads) :
    n.replaceReads old new =
      { n with
        inputs := n.inputs.map (substituteName old new)
        attributes := n.attributes.map fun entry =>
          (entry.1, entry.2.mapBody (Graph.substituteOuter old new))
        bookmarks := [] } := by
  have hbodies := Attributes.withBodies_map (Graph.substituteOuter old new) n.attributes
  unfold replaceReads
  rw [if_pos (by simpa using h)]
  unfold rewired
  rw [← hbodies]
  rfl

theorem replaceReads_of_not_mem {n : Node} {old : String} (new : String) (h : old ∉ n.reads) :
    n.replaceReads old new = n := by
  unfold replaceReads
  rw [if_neg (by simpa using h)]

@[simp] theorem name_replaceReads (old new : String) (n : Node) :
    (n.replaceReads old new).name = n.name := by
  unfold replaceReads; split <;> rfl

@[simp] theorem op_replaceReads (old new : String) (n : Node) :
    (n.replaceReads old new).op = n.op := by
  unfold replaceReads; split <;> rfl

@[simp] theorem outputs_replaceReads (old new : String) (n : Node) :
    (n.replaceReads old new).outputs = n.outputs := by
  unfold replaceReads; split <;> rfl

@[simp] theorem results_replaceReads (old new : String) (n : Node) :
    (n.replaceReads old new).results = n.results := by
  simp [results]

@[simp] theorem keys_replaceReads (old new : String) (n : Node) :
    (n.replaceReads old new).attributes.map Prod.fst = n.attributes.map Prod.fst := by
  by_cases h : old ∈ n.reads
  · simp [replaceReads_of_mem h]
  · rw [replaceReads_of_not_mem new h]

theorem bodies_replaceReads (old new : String) (n : Node) :
    (n.replaceReads old new).bodies =
      if old ∈ n.reads then
        n.bodies.map fun body => (body.1, body.2.substituteOuter old new)
      else n.bodies := by
  by_cases h : old ∈ n.reads
  · rw [if_pos h, replaceReads_of_mem h]
    unfold bodies
    rw [List.filterMap_map, List.map_filterMap]
    refine List.filterMap_congr fun entry _ => ?_
    obtain ⟨key, value⟩ := entry
    cases value <;> rfl
  · rw [if_neg h, replaceReads_of_not_mem new h]

end Node

namespace Graph

/-! ## What a graph defines -/

/-- The values that the nodes of a graph yield. -/
def results (g : Graph) : List String := g.nodes.flatMap Node.results

theorem mem_results {g : Graph} {value : String} :
    value ∈ g.results ↔ ∃ n ∈ g.nodes, value ∈ n.results := by
  simp [results]

theorem ne_empty_of_mem_results {g : Graph} {value : String} (h : value ∈ g.results) :
    value ≠ "" := by
  obtain ⟨n, -, hn⟩ := mem_results.1 h
  exact Node.ne_empty_of_mem_results hn

theorem producer?_isSome_iff {g : Graph} {value : String} :
    (g.producer? value).isSome = true ↔ value ∈ g.results := by
  unfold producer?
  rw [List.find?_isSome, mem_results]
  simp [Node.produces_iff]

theorem producer?_eq_some {g : Graph} {value : String} {n : Node} (h : g.producer? value = some n) :
    n ∈ g.nodes ∧ value ∈ n.results := by
  refine ⟨List.mem_of_find?_eq_some h, Node.produces_iff.1 ?_⟩
  simpa using List.find?_some h

theorem defines_iff {g : Graph} {value : String} :
    g.defines value = true ↔ value ∈ g.inputs ∨ value ∈ g.results := by
  unfold defines
  rw [Bool.or_eq_true, producer?_isSome_iff]
  simp [isInput]

theorem defines_congr {g h : Graph} (hinputs : g.inputs = h.inputs)
    (hresults : ∀ value, value ∈ g.results ↔ value ∈ h.results) (value : String) :
    g.defines value = h.defines value := by
  rw [Bool.eq_iff_iff, defines_iff, defines_iff, hinputs, hresults]

/-! ## Every graph of a tree -/

/-- Something holds of every graph of a tree, seen with the names that count around it. What
counts in the bodies of a graph is what its scope adds. -/
inductive Everywhere (scope : Graph → (String → Prop) → String → Prop)
    (P : (String → Prop) → Graph → Prop) : (String → Prop) → Graph → Prop
  | intro {visible : String → Prop} {g : Graph} (here : P visible g)
      (inside : ∀ n ∈ g.nodes, ∀ body ∈ n.bodies, Everywhere scope P (scope g visible) body.2) :
      Everywhere scope P visible g

namespace Everywhere

variable {scope : Graph → (String → Prop) → String → Prop}
  {P Q : (String → Prop) → Graph → Prop} {visible : String → Prop} {g : Graph}

theorem here (h : Everywhere scope P visible g) : P visible g := by
  cases h; assumption

theorem body (h : Everywhere scope P visible g) {n : Node} (hn : n ∈ g.nodes)
    {body : String × Graph} (hbody : body ∈ n.bodies) :
    Everywhere scope P (scope g visible) body.2 := by
  cases h with
  | intro _ hbelow => exact hbelow n hn body hbody

/-- What follows in every graph from what holds there. -/
theorem imp (h : Everywhere scope P visible g) (himp : ∀ visible g, P visible g → Q visible g) :
    Everywhere scope Q visible g := by
  induction h with
  | intro here _ ih => exact .intro (himp _ _ here) ih

end Everywhere

/-- Whether a test succeeds for every graph of a tree. -/
def allGraphs (test : Graph → Bool) : Graph → Bool :=
  fold fun g below => test g && below.all fun bodies => bodies.all id

theorem allGraphs_iff {test : Graph → Bool} {g : Graph} (anywhere : String → Prop) :
    g.allGraphs test = true ↔
      Everywhere (fun _ taken => taken) (fun _ g => test g = true) anywhere g := by
  induction g using bodyInduction with
  | step g ih =>
      have hstep : g.allGraphs test = true ↔
          test g = true ∧ ∀ n ∈ g.nodes, ∀ body ∈ n.bodies, body.2.allGraphs test = true := by
        rw [allGraphs, fold_eq]
        simp
      rw [hstep]
      constructor
      · rintro ⟨here, hinside⟩
        exact .intro here fun n hn body hbody => (ih n hn body hbody).1 (hinside n hn body hbody)
      · exact fun h => ⟨h.here, fun n hn body hbody => (ih n hn body hbody).2 (h.body hn hbody)⟩

/-- What can be decided for one graph can be decided for all graphs of a tree. -/
instance (P : Graph → Prop) [DecidablePred P] (anywhere : String → Prop) (g : Graph) :
    Decidable (Everywhere (fun _ taken => taken) (fun _ g => P g) anywhere g) :=
  decidable_of_iff (g.allGraphs (decide <| P ·) = true) <|
    (allGraphs_iff anywhere).trans (by simp only [decide_eq_true_eq])

/-- Something holds of every graph of a tree, seen with the graphs around it, innermost first. -/
inductive EveryScope (P : List Graph → Graph → Prop) : List Graph → Graph → Prop
  | intro {enclosing : List Graph} {g : Graph} (here : P enclosing g)
      (inside : ∀ n ∈ g.nodes, ∀ body ∈ n.bodies, EveryScope P (g :: enclosing) body.2) :
      EveryScope P enclosing g

namespace EveryScope

variable {P Q : List Graph → Graph → Prop} {enclosing : List Graph} {g : Graph}

theorem here (h : EveryScope P enclosing g) : P enclosing g := by
  cases h; assumption

theorem body (h : EveryScope P enclosing g) {n : Node} (hn : n ∈ g.nodes)
    {body : String × Graph} (hbody : body ∈ n.bodies) : EveryScope P (g :: enclosing) body.2 := by
  cases h with
  | intro _ hbelow => exact hbelow n hn body hbody

theorem imp (h : EveryScope P enclosing g) (himp : ∀ enclosing g, P enclosing g → Q enclosing g) :
    EveryScope Q enclosing g := by
  induction h with
  | intro here _ ih => exact .intro (himp _ _ here) ih

theorem of_forall (h : ∀ enclosing g, P enclosing g) (enclosing : List Graph) (g : Graph) :
    EveryScope P enclosing g := by
  induction g using Graph.bodyInduction generalizing enclosing with
  | step g ih => exact .intro (h enclosing g) fun n hn body hbody => ih n hn body hbody _

end EveryScope

/-- What holds of a graph and of its bodies holds of the tree if there are no further bodies. -/
theorem EveryScope.of_bodies {P : List Graph → Graph → Prop} {enclosing : List Graph} {g : Graph}
    (here : P enclosing g)
    (hbodies : ∀ n ∈ g.nodes, ∀ body ∈ n.bodies,
      P (g :: enclosing) body.2 ∧ ∀ m ∈ body.2.nodes, m.bodies.isEmpty = true) :
    EveryScope P enclosing g := by
  refine .intro here fun n hn body hbody => .intro (hbodies n hn body hbody).1 fun m hm below hbelow => ?_
  rw [List.isEmpty_iff.1 ((hbodies n hn body hbody).2 m hm)] at hbelow
  cases hbelow

/-! ## Trees under substitution -/

theorem names_body {g : Graph} {n : Node} (hn : n ∈ g.nodes) {body : String × Graph}
    (hbody : body ∈ n.bodies) {name : String} (h : name ∈ body.2.names) : name ∈ g.names := by
  rw [names_eq]
  refine List.mem_append_right _ (List.mem_flatMap.2 ⟨n, hn, List.mem_append_right _ ?_⟩)
  exact List.mem_flatMap.2 ⟨body, hbody, h⟩

theorem mem_names_of_mem_inputs {g : Graph} {name : String} (h : name ∈ g.inputs) :
    name ∈ g.names := by
  rw [names_eq]; simp [h]

theorem mem_names_of_mem_results {g : Graph} {name : String} (h : name ∈ g.results) :
    name ∈ g.names := by
  obtain ⟨n, hn, hmem⟩ := mem_results.1 h
  rw [names_eq]
  refine List.mem_append_right _ (List.mem_flatMap.2 ⟨n, hn, List.mem_append_left _ ?_⟩)
  simp [(Node.mem_results.1 hmem).1]

theorem mem_names_of_defines {g : Graph} {name : String} (h : g.defines name = true) :
    name ∈ g.names :=
  (defines_iff.1 h).elim mem_names_of_mem_inputs mem_names_of_mem_results

@[simp] theorem name_substituteOuter (old new : String) (g : Graph) :
    (g.substituteOuter old new).name = g.name := by
  rw [substituteOuter_eq]; split <;> rfl

@[simp] theorem inputs_substituteOuter (old new : String) (g : Graph) :
    (g.substituteOuter old new).inputs = g.inputs := by
  rw [substituteOuter_eq]; split <;> rfl

@[simp] theorem infos_substituteOuter (old new : String) (g : Graph) :
    (g.substituteOuter old new).infos = g.infos := by
  rw [substituteOuter_eq]; split <;> rfl

@[simp] theorem length_outputs_substituteOuter (old new : String) (g : Graph) :
    (g.substituteOuter old new).outputs.length = g.outputs.length := by
  rw [substituteOuter_eq]; split <;> simp

/-- The nodes of a graph after a substitution: the same ones, or all of them after it. -/
theorem nodes_substituteOuter (old new : String) (g : Graph) :
    (g.substituteOuter old new).nodes =
      if g.defines old then g.nodes else g.nodes.map (Node.replaceReads old new) := by
  rw [substituteOuter_eq]; split <;> rfl

theorem results_map_replaceReads (old new : String) (nodes : List Node) :
    (nodes.map (Node.replaceReads old new)).flatMap Node.results = nodes.flatMap Node.results := by
  simp [List.flatMap_map]

@[simp] theorem results_substituteOuter (old new : String) (g : Graph) :
    (g.substituteOuter old new).results = g.results := by
  rw [results, nodes_substituteOuter]
  split
  · rfl
  · exact results_map_replaceReads old new g.nodes

@[simp] theorem results_replaceInputs (g : Graph) (old new : String) :
    (g.replaceInputs old new).results = g.results := by
  unfold replaceInputs
  split
  · rfl
  · exact results_map_replaceReads old new g.nodes

@[simp] theorem defines_substituteOuter (old new : String) (g : Graph) (value : String) :
    (g.substituteOuter old new).defines value = g.defines value :=
  defines_congr (by simp) (by simp) value

@[simp] theorem defines_replaceInputs (g : Graph) (old new value : String) :
    (g.replaceInputs old new).defines value = g.defines value :=
  defines_congr (by simp) (by simp) value

theorem keyed_map_replaceReads {nodes : List Node} (h : ∀ n ∈ nodes, n.Keyed) (old new : String) :
    ∀ n ∈ nodes.map (Node.replaceReads old new), n.Keyed := by
  intro n hn
  obtain ⟨m, hm, rfl⟩ := List.mem_map.1 hn
  unfold Node.Keyed
  rw [Node.keys_replaceReads]
  exact h m hm

/-- A body is a body of the node before the substitution, or one of them after it. -/
theorem mem_bodies_replaceReads {old new : String} {n : Node} {body : String × Graph}
    (h : body ∈ (n.replaceReads old new).bodies) :
    ∃ before ∈ n.bodies, body.1 = before.1 ∧
      (body.2 = before.2 ∨ old ∈ n.reads ∧ body.2 = before.2.substituteOuter old new) := by
  rw [Node.bodies_replaceReads] at h
  split at h
  · rename_i hreads
    obtain ⟨before, hbefore, rfl⟩ := List.mem_map.1 h
    exact ⟨before, hbefore, rfl, .inr ⟨hreads, rfl⟩⟩
  · exact ⟨body, h, rfl, .inl rfl⟩

end Graph

/-! ## What is read after a substitution -/

theorem substituteName_eq (old new name : String) :
    substituteName old new name = if name = old then new else name := by
  simp [substituteName]

/-- A substituted list holds the new name in place of the old one. -/
theorem mem_map_substituteName {old new name : String} {names : List String}
    (h : name ∈ names.map (substituteName old new)) :
    name = new ∧ old ∈ names ∨ name ∈ names ∧ name ≠ old := by
  obtain ⟨before, hbefore, rfl⟩ := List.mem_map.1 h
  rw [substituteName_eq]
  split
  · rename_i heq
    exact .inl ⟨rfl, heq ▸ hbefore⟩
  · exact .inr ⟨hbefore, by assumption⟩

theorem map_substituteName_of_not_mem {old : String} (new : String) {names : List String}
    (h : old ∉ names) : names.map (substituteName old new) = names := by
  conv_rhs => rw [← List.map_id names]
  refine List.map_congr_left fun name hname => ?_
  have hne : name ≠ old := fun e => h (by rwa [← e])
  rw [substituteName_eq, if_neg hne, id]

/-- Distinct names stay distinct when one of them is replaced by a name that is not there. -/
theorem nodup_map_substituteName {old new : String} {names : List String} (hnodup : names.Nodup)
    (hnot : old ∈ names → new ∉ names) : (names.map (substituteName old new)).Nodup := by
  refine hnodup.map_on fun a ha b hb heq => ?_
  rw [substituteName_eq, substituteName_eq] at heq
  split at heq <;> split at heq
  · rename_i h₁ h₂
    exact h₁.trans h₂.symm
  · rename_i hold _
    exact absurd (heq ▸ hb) (hnot (hold ▸ ha))
  · rename_i _ hold
    exact absurd (heq ▸ ha) (hnot (hold ▸ hb))
  · exact heq

namespace Node

theorem mem_inputs_replaceReads {old new name : String} {n : Node}
    (h : name ∈ (n.replaceReads old new).inputs) :
    (name = new ∧ old ∈ n.inputs ∧ old ≠ "") ∨ name ∈ n.inputs := by
  by_cases hread : old ∈ n.reads
  · rw [replaceReads_of_mem hread] at h
    rcases mem_map_substituteName h with ⟨hname, hold⟩ | ⟨hname, -⟩
    · exact .inl ⟨hname, hold, ne_empty_of_mem_reads hread⟩
    · exact .inr hname
  · rw [replaceReads_of_not_mem new hread] at h
    exact .inr h

/-- Names other than the one that is replaced stay among the inputs. -/
theorem mem_inputs_replaceReads_of_ne {old new name : String} {n : Node} (h : name ∈ n.inputs)
    (hne : name ≠ old) : name ∈ (n.replaceReads old new).inputs := by
  by_cases hread : old ∈ n.reads
  · rw [replaceReads_of_mem hread]
    refine List.mem_map.2 ⟨name, h, ?_⟩
    rw [substituteName_eq, if_neg hne]
  · rwa [replaceReads_of_not_mem new hread]

end Node

/-- Whether a graph yields a value or one of its nodes reads it. -/
def Graph.Uses (g : Graph) (value : String) : Prop :=
  value ∈ g.outputs ∧ value ≠ "" ∨ ∃ n ∈ g.nodes, value ∈ n.reads

/-- A name is taken from outside exactly when it is used and not defined here. -/
theorem Graph.mem_outerReferences_iff {g : Graph} {name : String} :
    name ∈ g.outerReferences ↔ g.defines name = false ∧ g.Uses name := by
  rw [mem_outerReferences]
  constructor
  · rintro ⟨hne, hdef, hmem | ⟨n, hn, hmem⟩⟩
    · exact ⟨hdef, .inl ⟨hmem, hne⟩⟩
    · exact ⟨hdef, .inr ⟨n, hn, Node.mem_reads.2 (hmem.imp (⟨·, hne⟩) id)⟩⟩
  · rintro ⟨hdef, ⟨hmem, hne⟩ | ⟨n, hn, hmem⟩⟩
    · exact ⟨hne, hdef, .inl hmem⟩
    · exact ⟨Node.ne_empty_of_mem_reads hmem, hdef,
        .inr ⟨n, hn, (Node.mem_reads.1 hmem).imp And.left id⟩⟩

/-- What a node reads after a substitution, given what its bodies read. -/
private theorem reads_replaceReads_of_bodies {old new name : String} {n : Node}
    (hbodies : ∀ body ∈ n.bodies, name ∈ (body.2.substituteOuter old new).outerReferences →
      name = new ∧ old ∈ body.2.outerReferences ∨ name ∈ body.2.outerReferences ∧ name ≠ old)
    (h : name ∈ (n.replaceReads old new).reads) :
    name = new ∧ old ∈ n.reads ∨ name ∈ n.reads ∧ name ≠ old := by
  by_cases hread : old ∈ n.reads
  · rcases Node.mem_reads.1 h with ⟨hmem, hne⟩ | ⟨body, hbody, hmem⟩
    · rw [Node.replaceReads_of_mem hread] at hmem
      rcases mem_map_substituteName hmem with ⟨rfl, -⟩ | ⟨hmem, hneq⟩
      · exact .inl ⟨rfl, hread⟩
      · exact .inr ⟨Node.mem_reads.2 (.inl ⟨hmem, hne⟩), hneq⟩
    · rw [Node.bodies_replaceReads, if_pos hread] at hbody
      obtain ⟨before, hbefore, rfl⟩ := List.mem_map.1 hbody
      rcases hbodies before hbefore hmem with ⟨rfl, -⟩ | ⟨hmem, hneq⟩
      · exact .inl ⟨rfl, hread⟩
      · exact .inr ⟨Node.mem_reads.2 (.inr ⟨before, hbefore, hmem⟩), hneq⟩
  · rw [Node.replaceReads_of_not_mem new hread] at h
    exact .inr ⟨h, fun e => hread (e ▸ h)⟩

/-- A name that a graph takes from outside after a substitution. -/
theorem Graph.mem_outerReferences_substituteOuter {old new name : String} (hold : old ≠ "")
    {g : Graph} (h : name ∈ (g.substituteOuter old new).outerReferences) :
    name = new ∧ old ∈ g.outerReferences ∨ name ∈ g.outerReferences ∧ name ≠ old := by
  induction g using Graph.bodyInduction with
  | step g ih =>
      by_cases hdefold : g.defines old = true
      · rw [substituteOuter_eq, if_pos hdefold] at h
        refine .inr ⟨h, fun e => ?_⟩
        rw [e] at h
        simp [(mem_outerReferences.1 h).2.1] at hdefold
      obtain ⟨hdef, hused⟩ := mem_outerReferences_iff.1 h
      rw [defines_substituteOuter] at hdef
      rw [Bool.not_eq_true] at hdefold
      rw [substituteOuter_eq, hdefold] at hused
      simp only [Bool.false_eq_true, if_false] at hused
      rcases hused with ⟨hused, hne⟩ | ⟨n, hn, hused⟩
      · rcases mem_map_substituteName hused with ⟨rfl, hmem⟩ | ⟨hmem, hneq⟩
        · exact .inl ⟨rfl, mem_outerReferences_iff.2 ⟨hdefold, .inl ⟨hmem, hold⟩⟩⟩
        · exact .inr ⟨mem_outerReferences_iff.2 ⟨hdef, .inl ⟨hmem, hne⟩⟩, hneq⟩
      · obtain ⟨m, hm, rfl⟩ := List.mem_map.1 hn
        rcases reads_replaceReads_of_bodies (fun body hbody => ih m hm body hbody) hused with
          ⟨rfl, hmem⟩ | ⟨hmem, hneq⟩
        · exact .inl ⟨rfl, mem_outerReferences_iff.2 ⟨hdefold, .inr ⟨m, hm, hmem⟩⟩⟩
        · exact .inr ⟨mem_outerReferences_iff.2 ⟨hdef, .inr ⟨m, hm, hmem⟩⟩, hneq⟩

/-- What a node reads after a substitution: the new name if it read the old one, and what
else it read. -/
theorem Node.mem_reads_replaceReads {old new name : String} {n : Node}
    (h : name ∈ (n.replaceReads old new).reads) :
    name = new ∧ old ∈ n.reads ∨ name ∈ n.reads ∧ name ≠ old := by
  by_cases hread : old ∈ n.reads
  · exact reads_replaceReads_of_bodies
      (fun body _ => Graph.mem_outerReferences_substituteOuter (ne_empty_of_mem_reads hread)) h
  · rw [replaceReads_of_not_mem new hread] at h
    exact .inr ⟨h, fun e => hread (e ▸ h)⟩

/-- A node still reads another name, given that its bodies do. -/
private theorem mem_reads_replaceReads_of_bodies {old new name : String} (hne : name ≠ old) {n : Node}
    (hbodies : ∀ body ∈ n.bodies, name ∈ body.2.outerReferences →
      name ∈ (body.2.substituteOuter old new).outerReferences)
    (h : name ∈ n.reads) : name ∈ (n.replaceReads old new).reads := by
  by_cases hold : old ∈ n.reads
  · rcases Node.mem_reads.1 h with ⟨hin, hpresent⟩ | ⟨body, hbody, hmem⟩
    · exact Node.mem_reads.2 (.inl ⟨Node.mem_inputs_replaceReads_of_ne hin hne, hpresent⟩)
    · refine Node.mem_reads.2 (.inr ⟨(body.1, body.2.substituteOuter old new), ?_,
        hbodies body hbody hmem⟩)
      rw [Node.bodies_replaceReads, if_pos hold]
      exact List.mem_map.2 ⟨body, hbody, rfl⟩
  · rwa [Node.replaceReads_of_not_mem new hold]

/-- What a graph takes from outside it still takes from there when another name is substituted. -/
theorem Graph.mem_outerReferences_substituteOuter_of_ne {old new name : String} (hne : name ≠ old)
    {g : Graph} (h : name ∈ g.outerReferences) :
    name ∈ (g.substituteOuter old new).outerReferences := by
  induction g using Graph.bodyInduction with
  | step g ih =>
      obtain ⟨hdef, hused⟩ := mem_outerReferences_iff.1 h
      by_cases hdefold : g.defines old = true
      · rwa [substituteOuter_eq, if_pos hdefold]
      refine mem_outerReferences_iff.2 ⟨by rwa [defines_substituteOuter], ?_⟩
      rw [substituteOuter_eq, if_neg hdefold]
      rcases hused with ⟨hmem, hpresent⟩ | ⟨n, hn, hread⟩
      · exact .inl ⟨List.mem_map.2 ⟨name, hmem, by rw [substituteName_eq, if_neg hne]⟩, hpresent⟩
      · exact .inr ⟨_, List.mem_map_of_mem hn,
          mem_reads_replaceReads_of_bodies hne (fun body hbody => ih n hn body hbody) hread⟩

/-- So does a node. -/
theorem Node.mem_reads_replaceReads_of_ne {old new name : String} (hne : name ≠ old) {n : Node}
    (h : name ∈ n.reads) : name ∈ (n.replaceReads old new).reads :=
  mem_reads_replaceReads_of_bodies hne
    (fun _ _ => Graph.mem_outerReferences_substituteOuter_of_ne hne) h

/-- Nothing is substituted for a name that is not taken from outside. -/
theorem Graph.substituteOuter_of_not_mem {old : String} (new : String) (hold : old ≠ "") {g : Graph}
    (h : old ∉ g.outerReferences) : g.substituteOuter old new = g := by
  rw [substituteOuter_eq]
  split
  · rfl
  · rename_i hdef
    have hunused : ¬ g.Uses old := fun hused =>
      h (mem_outerReferences_iff.2 ⟨by simpa using hdef, hused⟩)
    have hnodes : g.nodes.map (Node.replaceReads old new) = g.nodes := by
      conv_rhs => rw [← List.map_id g.nodes]
      refine List.map_congr_left fun n hn => ?_
      exact Node.replaceReads_of_not_mem new fun hread => hunused (.inr ⟨n, hn, hread⟩)
    have houtputs : g.outputs.map (substituteName old new) = g.outputs :=
      map_substituteName_of_not_mem new fun hmem => hunused (.inl ⟨hmem, hold⟩)
    cases g
    simp only [hnodes, houtputs]

/-! ## Names in use -/

namespace Graph

/-- The names that a graph takes from outside are in use in it. -/
theorem mem_names_of_outerReferences {g : Graph} {name : String} (h : name ∈ g.outerReferences) :
    name ∈ g.names := by
  induction g using Graph.bodyInduction with
  | step g ih =>
      rw [names_eq]
      rcases (mem_outerReferences.1 h).2.2 with hmem | ⟨n, hn, hmem⟩
      · simp [hmem]
      · refine List.mem_append_right _ (List.mem_flatMap.2 ⟨n, hn, ?_⟩)
        rcases hmem with hmem | ⟨body, hbody, hmem⟩
        · simp [hmem]
        · exact List.mem_append_right _ (List.mem_flatMap.2 ⟨body, hbody, ih n hn body hbody hmem⟩)

theorem mem_names_of_mem_node {g : Graph} {n : Node} (hn : n ∈ g.nodes) {name : String}
    (h : name = n.name ∨ name ∈ n.inputs ∨ name ∈ n.outputs) : name ∈ g.names := by
  rw [names_eq]
  refine List.mem_append_right _ (List.mem_flatMap.2 ⟨n, hn, List.mem_append_left _ ?_⟩)
  rcases h with rfl | h | h <;> simp [*]

theorem mem_names_of_mem_reads {g : Graph} {n : Node} (hn : n ∈ g.nodes) {name : String}
    (h : name ∈ n.reads) : name ∈ g.names := by
  rcases Node.mem_reads.1 h with ⟨h, -⟩ | ⟨body, hbody, h⟩
  · exact mem_names_of_mem_node hn (.inr (.inl h))
  · exact names_body hn hbody (mem_names_of_outerReferences h)

/-- Names stay in use when whatever uses them stays. -/
theorem names_subset {g h : Graph} (hinputs : g.inputs ⊆ h.inputs) (houtputs : g.outputs ⊆ h.outputs)
    (hinfos : g.infos.names ⊆ h.infos.names)
    (hnodes : ∀ n ∈ g.nodes, ∃ m ∈ h.nodes, m.name = n.name ∧ n.inputs ⊆ m.inputs ∧
      n.outputs ⊆ m.outputs ∧ n.bodies ⊆ m.bodies) : g.names ⊆ h.names := by
  intro name hname
  rw [names_eq] at hname ⊢
  simp only [List.mem_append, List.mem_flatMap, List.mem_cons] at hname ⊢
  rcases hname with ((hname | hname) | hname) | ⟨n, hn, hname⟩
  · exact .inl (.inl (.inl (hinputs hname)))
  · exact .inl (.inl (.inr (houtputs hname)))
  · exact .inl (.inr (hinfos hname))
  · obtain ⟨m, hm, hmname, hin, hout, hbodies⟩ := hnodes n hn
    refine .inr ⟨m, hm, ?_⟩
    rw [hmname]
    rcases hname with ((hname | hname) | hname) | ⟨body, hbody, hname⟩
    · exact .inl (.inl (.inl hname))
    · exact .inl (.inl (.inr (hin hname)))
    · exact .inl (.inr (hout hname))
    · exact .inr ⟨body, hbodies hbody, hname⟩

theorem mem_names_of_mem_outputs {g : Graph} {name : String} (h : name ∈ g.outputs) :
    name ∈ g.names := by
  rw [names_eq]
  simp [h]

end Graph

theorem InfoTable.mem_names_set {t : InfoTable} {info : ValueInfo} {name : String} :
    name ∈ (t.set info).names ↔ name ∈ t.names ∨ name = info.name := by
  simp only [InfoTable.names, List.mem_map, InfoTable.mem_entries_set]
  constructor
  · rintro ⟨other, rfl | ⟨hother, -⟩, rfl⟩
    · exact .inr rfl
    · exact .inl ⟨other, hother, rfl⟩
  · rintro (⟨other, hother, rfl⟩ | rfl)
    · by_cases hname : other.name = info.name
      · exact ⟨info, .inl rfl, hname.symm⟩
      · exact ⟨other, .inr ⟨hother, hname⟩, rfl⟩
    · exact ⟨info, .inl rfl, rfl⟩

/-- A fresh name is neither reserved nor in use. -/
theorem Surroundings.fresh_not_mem (s : Surroundings) (g : Graph) (base : String) :
    s.fresh g base ∉ s.reserved ∧ s.fresh g base ∉ g.names := by
  simpa [Surroundings.fresh] using freshName_not_mem (s.reserved ++ g.names) base

/-- And it is not empty, for it starts with its base. -/
theorem Surroundings.fresh_ne_empty (s : Surroundings) (g : Graph) {base : String} (hbase : base ≠ "") :
    s.fresh g base ≠ "" := by
  unfold Surroundings.fresh freshName
  simp only
  split
  · cases hfound : ((List.range ((s.reserved ++ g.names).length + 1)).map fun k : Nat =>
        base ++ "__" ++ toString (k + 1)).find? fun name => !(s.reserved ++ g.names).contains name with
    | none => exact hbase
    | some name =>
        obtain ⟨k, -, rfl⟩ := List.mem_map.1 (List.mem_of_find?_eq_some hfound)
        intro hempty
        have hstart := (String.append_eq_empty_iff.1 hempty).1
        exact hbase (String.append_eq_empty_iff.1 hstart).1
  · exact hbase

end TensorGraph
