import Mathlib.Data.List.Infix
import TensorGraph.Proofs.Spelling

/-!
# Definitions

A name that is seen from somewhere in a tree means a slot: an input or an output of a node, in the
nearest graph on the way up that defines the name. Where no graph defines again what is defined
around it, only one graph on the way does.

## Main results

* `Graph.findSome?_scopesAt` -- the slot is the one that looking the name up leads to.
* `Graph.eq_of_defines` -- on a way in a valid tree a name is defined once.
* `Graph.SpelledAs.slot?_eq` -- in other names the same slots are meant.
-/

namespace TensorGraph

/-- A place in a graph that defines a name: an input, or an output of the node at a place. -/
inductive Slot where
  | input (i : Nat)
  | output (place i : Nat)
  deriving DecidableEq, Repr

namespace Graph

/-- The slot of a graph that defines a name. -/
def slot? (g : Graph) (name : String) : Option Slot :=
  match g.inputs.idxOf? name with
  | some i => some (.input i)
  | none => (g.producerPlace? name).bind fun place =>
      (g.nodes[place]?.bind fun n => n.outputs.idxOf? name).map (Slot.output place)

/-- The definition of a name seen from the end of a trail: where the nearest graph stands that
defines it, and the slot. -/
def definition? (g : Graph) (trail : Trail) (name : String) : Option (Trail × Slot) :=
  trail.inits.reverse.findSome? fun upper =>
    (g.bodyAt? upper).bind fun scope => (scope.slot? name).map (upper, ·)

/-- The graph at the end of a trail and those around it, innermost first. -/
def scopesAt (g : Graph) (trail : Trail) : List Graph := trail.inits.reverse.filterMap g.bodyAt?

/-- What a slot is to someone who looks a name up. -/
def origin? (g : Graph) : Slot → Option Origin
  | .input _ => some (.input g)
  | .output place _ => g.nodes[place]?.map (.node g)

variable {g h : Graph} {name : String}

private theorem exists_idxOf? {names : List String} (h : name ∈ names) :
    ∃ i, names.idxOf? name = some i := by
  rw [← Option.isSome_iff_exists, ← Option.ne_none_iff_isSome, ne_eq, List.idxOf?_eq_none_iff]
  exact fun hnot => hnot h

/-- The slot of a value that a node yields. -/
private theorem exists_output {place : Nat} (hplace : g.producerPlace? name = some place) :
    ∃ n i, g.nodes[place]? = some n ∧ n.outputs.idxOf? name = some i := by
  obtain ⟨n, hn, hresult⟩ := producerPlace?_mem hplace
  obtain ⟨i, hi⟩ := exists_idxOf? (Node.mem_results.1 hresult).1
  exact ⟨n, i, hn, hi⟩

/-- The slot of a value that is no input is an output of its producer. -/
theorem slot?_eq_output {place : Nat} (hinput : name ∉ g.inputs)
    (hplace : g.producerPlace? name = some place) : ∃ i, g.slot? name = some (.output place i) := by
  obtain ⟨n, i, hn, hi⟩ := exists_output hplace
  exact ⟨i, by simp [slot?, List.idxOf?_eq_none_iff.2 hinput, hplace, hn, hi]⟩

/-- The graph defines a name where its slot is. -/
theorem localOrigin?_eq (g : Graph) (name : String) :
    g.localOrigin? name = (g.slot? name).bind g.origin? := by
  unfold localOrigin? slot?
  by_cases hinput : name ∈ g.inputs
  · obtain ⟨i, hi⟩ := exists_idxOf? hinput
    rw [if_pos (by simpa [isInput] using hinput), hi]
    rfl
  · rw [if_neg (by simpa [isInput] using hinput), List.idxOf?_eq_none_iff.2 hinput, producer?_eq]
    cases hplace : g.producerPlace? name with
    | none => rfl
    | some place =>
        obtain ⟨n, i, hn, hi⟩ := exists_output hplace
        simp [hn, hi, origin?]

theorem isSome_slot? (g : Graph) (name : String) : (g.slot? name).isSome = g.defines name := by
  unfold slot? defines
  rw [producer?_eq]
  by_cases hinput : name ∈ g.inputs
  · obtain ⟨i, hi⟩ := exists_idxOf? hinput
    simp [hi, isInput, hinput]
  · rw [List.idxOf?_eq_none_iff.2 hinput]
    cases hplace : g.producerPlace? name with
    | none => simp [isInput, hinput]
    | some place =>
        obtain ⟨n, i, hn, hi⟩ := exists_output hplace
        simp [hn, hi]

/-- Looking a name up leads to the slot that defines it. -/
theorem findSome?_scopesAt (g : Graph) (trail : Trail) (name : String) :
    ((g.scopesAt trail).findSome? fun scope => scope.localOrigin? name) =
      (g.definition? trail name).bind fun found =>
        (g.bodyAt? found.1).bind fun scope => scope.origin? found.2 := by
  unfold scopesAt definition?
  induction trail.inits.reverse with
  | nil => rfl
  | cons upper rest ih =>
      rw [List.filterMap_cons, List.findSome?_cons]
      cases hscope : g.bodyAt? upper with
      | none => simpa using ih
      | some scope =>
          rw [List.findSome?_cons, localOrigin?_eq]
          cases hslot : scope.slot? name with
          | none => simpa [hslot] using ih
          | some slot =>
              have horigin : (scope.origin? slot).isSome = true := by
                have := localOrigin?_isSome scope name
                rwa [localOrigin?_eq, ← isSome_slot?, hslot] at this
              obtain ⟨origin, horigin⟩ := Option.isSome_iff_exists.1 horigin
              simp only [hscope, hslot, Option.bind_some, Option.map_some, horigin]

/-- A definition that is seen stands on the way up. -/
theorem mem_of_definition? {trail : Trail} {found : Trail × Slot}
    (h : g.definition? trail name = some found) : found.1 <+: trail ∧
      ∃ scope, g.bodyAt? found.1 = some scope ∧ scope.slot? name = some found.2 := by
  obtain ⟨upper, hupper, hfound⟩ := List.exists_of_findSome?_eq_some h
  obtain ⟨scope, hscope, hfound⟩ := Option.bind_eq_some_iff.1 hfound
  obtain ⟨slot, hslot, rfl⟩ := Option.map_eq_some_iff.1 hfound
  exact ⟨(List.mem_inits _ _).1 (List.mem_reverse.1 hupper), scope, hscope, hslot⟩

/-- Slots are meant alike when names are replaced by others. -/
theorem SpelledAs.slot?_eq {σ : Equiv.Perm String} (hσ : σ "" = "") (hg : g.SpelledAs σ h)
    (name : String) : h.slot? (σ name) = g.slot? name := by
  have hindex (names : List String) : (names.map σ).idxOf? (σ name) = names.idxOf? name := by
    unfold List.idxOf?
    rw [List.findIdx?_map]
    congr 1
    funext other
    rw [Bool.eq_iff_iff, Function.comp_apply, beq_iff_eq, beq_iff_eq, σ.injective.eq_iff]
  unfold slot?
  rw [hg.inputs, hindex, hg.producerPlace?_eq hσ]
  cases g.inputs.idxOf? name with
  | some i => rfl
  | none =>
      refine Option.bind_congr fun place _ => congrArg _ ?_
      have hnode := rel_getElem? hg.nodes place
      revert hnode
      generalize g.nodes[place]? = found
      generalize h.nodes[place]? = found'
      rintro (@⟨n, k, hn⟩ | -)
      · rw [Option.bind_some, Option.bind_some, hn.outputs, hindex]
      · rfl

/-! ## Valid trees -/

variable {visible : String → Prop}

/-- A graph does not define what is defined around it. -/
theorem Scoped.not_defines (hg : Scoped visible g) (hseen : visible name) :
    g.defines name = false := by
  rw [Bool.eq_false_iff, ne_eq, defines_iff]
  rintro (hin | hresult)
  · exact hg.newInputs name hin hseen
  · exact hg.newResults name hresult hseen

/-- What a graph of a scoped tree defines is not defined around the tree. -/
theorem not_visible_of_defines (hg : ScopedTree visible g) (hkeyed : KeyedTree g) {trail : Trail}
    {inner : Graph} (hat : g.bodyAt? trail = some inner) (hdef : inner.defines name = true) :
    ¬ visible name := by
  induction trail generalizing g visible with
  | nil =>
      obtain rfl := Option.some.inj hat
      intro hseen
      simp [hg.here.not_defines hseen] at hdef
  | cons step rest ih =>
      obtain ⟨place, key⟩ := step
      obtain ⟨body, hbody, hrest⟩ := (bodyAt?_cons hkeyed.here).1 hat
      obtain ⟨n, hn, hmem⟩ := id hbody
      exact fun hseen => ih (hg.body (List.mem_of_getElem? hn) hmem) (hkeyed.body hbody) hrest
        (.inl hseen)

/-- Nor is it defined on the way. -/
theorem not_defines_of_step (hg : ScopedTree visible g) (hkeyed : KeyedTree g) {step : Nat × String}
    {rest : Trail} {inner : Graph} (hat : g.bodyAt? (step :: rest) = some inner)
    (hdef : inner.defines name = true) : g.defines name = false := by
  obtain ⟨place, key⟩ := step
  obtain ⟨body, hbody, hrest⟩ := (bodyAt?_cons hkeyed.here).1 hat
  obtain ⟨n, hn, hmem⟩ := id hbody
  rw [Bool.eq_false_iff]
  exact fun hhere => not_visible_of_defines (hg.body (List.mem_of_getElem? hn) hmem)
    (hkeyed.body hbody) hrest hdef (.inr hhere)

/-- On a way in a scoped tree a name is defined once. -/
theorem eq_of_defines (hg : ScopedTree visible g) (hkeyed : KeyedTree g) {trail upper lower : Trail}
    (hupper : upper <+: trail) (hlower : lower <+: trail) {outer inner : Graph}
    (houter : g.bodyAt? upper = some outer) (hinner : g.bodyAt? lower = some inner)
    (hdef : outer.defines name = true) (hdef' : inner.defines name = true) : upper = lower := by
  induction trail generalizing g visible upper lower with
  | nil => rw [List.prefix_nil.1 hupper, List.prefix_nil.1 hlower]
  | cons step rest ih =>
      cases upper with
      | nil =>
          obtain rfl := Option.some.inj houter
          cases lower with
          | nil => rfl
          | cons => simp [not_defines_of_step hg hkeyed hinner hdef'] at hdef
      | cons step' upper =>
          cases lower with
          | nil =>
              obtain rfl := Option.some.inj hinner
              simp [not_defines_of_step hg hkeyed houter hdef] at hdef'
          | cons step'' lower =>
              obtain ⟨rfl, hup⟩ := List.cons_prefix_cons.1 hupper
              obtain ⟨rfl, hlow⟩ := List.cons_prefix_cons.1 hlower
              obtain ⟨place, key⟩ := step''
              obtain ⟨body, hbody, hout⟩ := (bodyAt?_cons hkeyed.here).1 houter
              obtain ⟨body', hbody', hin⟩ := (bodyAt?_cons hkeyed.here).1 hinner
              have hsame := (hasBody_iff hkeyed.here).1 hbody'
              rw [(hasBody_iff hkeyed.here).1 hbody] at hsame
              obtain rfl := Option.some.inj hsame
              obtain ⟨n, hn, hmem⟩ := id hbody
              rw [ih (hg.body (List.mem_of_getElem? hn) hmem) (hkeyed.body hbody) hup hlow hout hin]

/-- A graph that defines a name defines it for all below it. -/
theorem definition?_fst_eq_some_iff (hg : ScopedTree visible g) (hkeyed : KeyedTree g)
    {trail : Trail} {scope : Graph} (hat : g.bodyAt? trail = some scope)
    (hdef : scope.defines name = true) (other : Trail) :
    (g.definition? other name).map Prod.fst = some trail ↔ trail <+: other := by
  constructor
  · intro hfound
    obtain ⟨found, hsome, rfl⟩ := Option.map_eq_some_iff.1 hfound
    exact (mem_of_definition? hsome).1
  · intro hway
    have hsome : (g.definition? other name).isSome = true := by
      refine List.findSome?_isSome_iff.2
        ⟨trail, List.mem_reverse.2 ((List.mem_inits _ _).2 hway), ?_⟩
      simp [hat, isSome_slot?, hdef]
    obtain ⟨found, hfound⟩ := Option.isSome_iff_exists.1 hsome
    obtain ⟨hupper, inner, hinner, hslot⟩ := mem_of_definition? hfound
    have hinnerdef : inner.defines name = true := by rw [← isSome_slot?, hslot, Option.isSome_some]
    rw [hfound, Option.map_some, eq_of_defines hg hkeyed hupper hway hinner hat hinnerdef hdef]

/-- The names of a graph in a tree are names of the tree. -/
theorem names_bodyAt? (hkeyed : KeyedTree g) {trail : Trail} {inner : Graph}
    (hat : g.bodyAt? trail = some inner) : inner.names ⊆ g.names := by
  induction trail generalizing g with
  | nil =>
      obtain rfl := Option.some.inj hat
      exact List.Subset.refl _
  | cons step rest ih =>
      obtain ⟨place, key⟩ := step
      obtain ⟨body, hbody, hrest⟩ := (bodyAt?_cons hkeyed.here).1 hat
      obtain ⟨n, hn, hmem⟩ := id hbody
      exact fun value hvalue =>
        names_body (List.mem_of_getElem? hn) hmem (ih (hkeyed.body hbody) hrest hvalue)

end Graph

end TensorGraph
