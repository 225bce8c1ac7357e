import TensorGraph.Graph.Site
import TensorGraph.Proofs.Steps
import TensorGraph.Proofs.Substituting

/-!
# Trails

A trail leads from a graph through hosts and keys to a body below it. A graph that is put at the end
of a trail is found there with everything below it, and the graphs whose trails part from this one
stay what they were.

## Main results

* `Graph.bodyAt?_putAt_append`, `Graph.bodyAt?_putAt_of_apart` -- what is found after a graph was
  put.
* `Graph.putAt_putAt` -- the last of the graphs that are put at a trail counts.
* `Graph.keyedTree_putAt` -- the keys of a tree stay distinct.
-/

namespace TensorGraph.Graph

variable {g old new : Graph} {place : Nat} {key : String} {trail : Trail}

/-! ## One step -/

theorem KeyedTree.here (h : KeyedTree g) : ∀ n ∈ g.nodes, n.Keyed := Everywhere.here h

theorem KeyedTree.body (h : KeyedTree g) {body : Graph} (hbody : g.HasBody place key body) :
    KeyedTree body := by
  obtain ⟨n, hn, hmem⟩ := hbody
  exact Everywhere.body h (List.mem_of_getElem? hn) hmem

/-- The first step of a trail leads to the body under its key. -/
theorem hasBody_iff (hkeyed : ∀ n ∈ g.nodes, n.Keyed) {body : Graph} :
    g.HasBody place key body ↔ (g.nodes[place]?.bind fun n => n.body? key) = some body := by
  rw [Option.bind_eq_some_iff]
  constructor
  · rintro ⟨n, hn, hmem⟩
    exact ⟨n, hn, (Node.body?_eq_some (hkeyed n (List.mem_of_getElem? hn))).2 hmem⟩
  · rintro ⟨n, hn, hbody⟩
    exact ⟨n, hn, (Node.body?_eq_some (hkeyed n (List.mem_of_getElem? hn))).1 hbody⟩

theorem bodyAt?_cons (hkeyed : ∀ n ∈ g.nodes, n.Keyed) {rest : Trail} {inner : Graph} :
    g.bodyAt? ((place, key) :: rest) = some inner ↔
      ∃ body, g.HasBody place key body ∧ body.bodyAt? rest = some inner := by
  rw [bodyAt?, Option.bind_eq_some_iff]
  simp only [hasBody_iff hkeyed]

theorem bodyAt?_append (g : Graph) (upper lower : Trail) :
    g.bodyAt? (upper ++ lower) = (g.bodyAt? upper).bind fun inner => inner.bodyAt? lower := by
  induction upper generalizing g with
  | nil => rfl
  | cons step rest ih =>
      obtain ⟨place, key⟩ := step
      rw [List.cons_append, bodyAt?, bodyAt?]
      cases g.nodes[place]?.bind fun n => n.body? key with
      | none => rfl
      | some body => exact ih body

theorem keyedTree_bodyAt? (hg : KeyedTree g) (h : g.bodyAt? trail = some old) : KeyedTree old := by
  induction trail generalizing g with
  | nil =>
      obtain rfl := Option.some.inj h
      exact hg
  | cons step rest ih =>
      obtain ⟨body, hbody, hrest⟩ := (bodyAt?_cons hg.here).1 h
      exact ih (hg.body hbody) hrest

/-- What holds of every graph of a tree holds of every graph of a tree below. -/
theorem everywhere_bodyAt? {scope : Graph → (String → Prop) → String → Prop}
    {P : (String → Prop) → Graph → Prop} {visible : String → Prop}
    (hg : Everywhere scope P visible g) (hkeyed : KeyedTree g) (h : g.bodyAt? trail = some old) :
    ∃ around, Everywhere scope P around old := by
  induction trail generalizing g visible with
  | nil =>
      obtain rfl := Option.some.inj h
      exact ⟨visible, hg⟩
  | cons step rest ih =>
      obtain ⟨body, hbody, hrest⟩ := (bodyAt?_cons hkeyed.here).1 h
      obtain ⟨n, hn, hmem⟩ := id hbody
      exact ih (hg.body (List.mem_of_getElem? hn) hmem) (hkeyed.body hbody) hrest

private theorem lookup_map_of_ne {attributes : List (String × Attribute)} {key' : String}
    (hne : key' ≠ key) :
    (attributes.map fun (k, v) => if k == key then (k, Attribute.body new) else (k, v)).lookup
      key' = attributes.lookup key' := by
  induction attributes with
  | nil => rfl
  | cons entry rest ih =>
      obtain ⟨k, v⟩ := entry
      rw [List.map_cons, List.lookup_cons]
      by_cases hk : k = key
      · subst hk
        simp only [BEq.rfl, if_true, List.lookup_cons, beq_false_of_ne hne, ih]
      · simp only [beq_false_of_ne hk, Bool.false_eq_true, if_false, List.lookup_cons, ih]

/-- A body that stands elsewhere is found where it was. -/
theorem body?_putBody_of_ne {place' : Nat} {key' : String} (hne : (place', key') ≠ (place, key)) :
    ((g.putBody place key new).nodes[place']?.bind fun n => n.body? key') =
      g.nodes[place']?.bind fun n => n.body? key' := by
  cases hn : g.nodes[place]? with
  | none => simp [putBody, hn]
  | some n =>
      rw [putBody_eq hn, putNode]
      by_cases hplace : place' = place
      · subst hplace
        have hkey : key' ≠ key := fun e => hne (by rw [e])
        rw [List.getElem?_set_self (List.getElem?_eq_some_iff.1 hn).1, hn]
        simp only [Option.bind_some, Node.body?, Node.attribute?, Node.rebodied]
        rw [lookup_map_of_ne hkey]
      · rw [List.getElem?_set_ne fun e => hplace e.symm]

theorem KeyedTree.putBody (hg : KeyedTree g) (hbody : g.HasBody place key old)
    (hnew : KeyedTree new) : KeyedTree (g.putBody place key new) := by
  refine .intro (fun k hk => ?_) fun k hk entry hentry => ?_
  · obtain ⟨n, hn, -⟩ := hbody
    rcases (mem_nodes_putBody hn).1 hk with rfl | ⟨j, -, hj⟩
    · exact Node.keyed_rebodied.2 (hg.here n (List.mem_of_getElem? hn))
    · exact hg.here k (List.mem_of_getElem? hj)
  · obtain ⟨j, hj⟩ := List.getElem?_of_mem hk
    rcases hbody.of_putBody hg.here (show (g.putBody place key new).HasBody j entry.1 entry.2 from
        ⟨k, hj, hentry⟩) with
      ⟨-, -, heq⟩ | ⟨-, hother⟩
    · exact heq ▸ hnew
    · exact hg.body hother

/-! ## What is put at the end of a trail -/

theorem bodyAt?_putAt_append (h : g.bodyAt? trail = some old) (new : Graph) (lower : Trail) :
    (g.putAt trail new).bodyAt? (trail ++ lower) = new.bodyAt? lower := by
  rw [bodyAt?_append, bodyAt?_putAt new h]
  rfl

/-- The graphs on the way have the new graph below them. -/
theorem bodyAt?_putAt_above {upper lower : Trail} (h : g.bodyAt? (upper ++ lower) = some old)
    (new : Graph) : (g.putAt (upper ++ lower) new).bodyAt? upper =
      (g.bodyAt? upper).map fun inner => inner.putAt lower new := by
  induction upper generalizing g with
  | nil => rfl
  | cons step rest ih =>
      obtain ⟨place, key⟩ := step
      obtain ⟨body, hbody, hrest⟩ := Option.bind_eq_some_iff.1 h
      simp only [List.cons_append, putAt, hbody, bodyAt?, Option.bind_some]
      rw [body?_putBody hbody]
      exact ih hrest

theorem bodyAt?_putAt_of_apart {other : Trail} (hbelow : ¬ trail <+: other)
    (habove : ¬ other <+: trail) (new : Graph) :
    (g.putAt trail new).bodyAt? other = g.bodyAt? other := by
  induction trail generalizing g other with
  | nil => exact absurd List.nil_prefix hbelow
  | cons step rest ih =>
      obtain ⟨place, key⟩ := step
      cases other with
      | nil => exact absurd List.nil_prefix habove
      | cons step' rest' =>
          obtain ⟨place', key'⟩ := step'
          cases hbody : g.nodes[place]?.bind fun n => n.body? key with
          | none => rw [putAt, hbody]
          | some body =>
              simp only [putAt, hbody, bodyAt?]
              by_cases hstep : (place', key') = (place, key)
              · cases hstep
                rw [body?_putBody hbody, hbody, Option.bind_some, Option.bind_some]
                exact ih (fun h => hbelow (List.prefix_cons_inj _ |>.2 h))
                  (fun h => habove (List.prefix_cons_inj _ |>.2 h))
              · rw [body?_putBody_of_ne hstep]

/-- What is put at the end of a trail takes the place of what was put there before. -/
theorem putAt_putAt (g : Graph) (trail : Trail) (old new : Graph) :
    (g.putAt trail old).putAt trail new = g.putAt trail new := by
  induction trail generalizing g with
  | nil => rfl
  | cons step rest ih =>
      obtain ⟨place, key⟩ := step
      cases hbody : g.nodes[place]?.bind fun n => n.body? key with
      | none =>
          have hkept : g.putAt ((place, key) :: rest) old = g := by rw [putAt, hbody]
          rw [hkept]
      | some body => simp only [putAt, hbody, body?_putBody hbody, putBody_putBody, ih]

/-- A tree stays as it is when a graph in it is put where it stands. -/
theorem putAt_self (hg : KeyedTree g) (h : g.bodyAt? trail = some old) : g.putAt trail old = g := by
  induction trail generalizing g with
  | nil => exact (Option.some.inj h).symm
  | cons step rest ih =>
      obtain ⟨place, key⟩ := step
      obtain ⟨body, hbody, hrest⟩ := (bodyAt?_cons hg.here).1 h
      simp only [putAt, (hasBody_iff hg.here).1 hbody]
      rw [ih (hg.body hbody) hrest, hbody.putBody_self hg.here]

/-- A tree keeps its arity when a graph in it does. -/
theorem arity_putAt (h : g.bodyAt? trail = some old) (harity : new.arity = old.arity) :
    (g.putAt trail new).arity = g.arity := by
  cases trail with
  | nil =>
      obtain rfl := Option.some.inj h
      exact harity
  | cons step rest =>
      unfold arity putAt
      split <;> simp

theorem keyedTree_putAt (hg : KeyedTree g) (hnew : KeyedTree new) :
    KeyedTree (g.putAt trail new) := by
  induction trail generalizing g with
  | nil => exact hnew
  | cons step rest ih =>
      obtain ⟨place, key⟩ := step
      rw [putAt]
      split
      · exact hg
      · rename_i body hfound
        have hbody := (hasBody_iff hg.here).2 hfound
        exact hg.putBody hbody (ih (hg.body hbody))

end TensorGraph.Graph
