import TensorGraph.Graph.Edit

/-!
# Sites in a tree of graphs

A site is a body graph somewhere below a root, reached from host to host. To change the
graph at a site, it is taken out together with what surrounds it, changed as a graph of
its own, and put back along the trail that led to it.

## Main results

* `Graph.bodyAt?_putAt` -- what is put at a trail is found there.
* `Site.trail_enter?` -- entering a body extends the trail by one step.
-/

namespace TensorGraph

/-- The places of hosts and the keys of bodies on the way from a root. -/
abbrev Trail := List (Nat × String)

namespace Graph

/-- The graph that a trail leads to. -/
def bodyAt? (g : Graph) : Trail → Option Graph
  | [] => some g
  | (place, key) :: rest =>
      (g.nodes[place]?.bind fun n => n.body? key).bind fun body => body.bodyAt? rest

/-- The graph with another one where a trail leads to. -/
def putAt (g : Graph) : Trail → Graph → Graph
  | [], new => new
  | (place, key) :: rest, new =>
      match g.nodes[place]?.bind fun n => n.body? key with
      | none => g
      | some body => g.putBody place key (body.putAt rest new)

private theorem lookup_map_body (attributes : List (String × Attribute)) (key : String)
    (body : Graph) {old : Attribute} (h : attributes.lookup key = some old) :
    (attributes.map fun (k, v) => if k == key then (k, Attribute.body body) else (k, v)).lookup
      key = some (.body body) := by
  induction attributes with
  | nil => simp at h
  | cons entry rest ih =>
      obtain ⟨k, v⟩ := entry
      rw [List.lookup_cons] at h
      by_cases hk : key = k
      · subst hk
        simp
      · have hk' : ¬ k = key := fun e => hk e.symm
        have hbeq : (key == k) = false := by simpa using hk
        rw [hbeq] at h
        have hbeq' : (k == key) = false := by simpa using hk'
        rw [List.map_cons, List.lookup_cons]
        simp only [hbeq', Bool.false_eq_true, if_false, hbeq]
        exact ih h

theorem body?_putBody {g : Graph} {place : Nat} {key : String} {old new : Graph}
    (h : (g.nodes[place]?.bind fun n => n.body? key) = some old) :
    ((g.putBody place key new).nodes[place]?.bind fun n => n.body? key) = some new := by
  obtain ⟨n, hn, hbody⟩ := Option.bind_eq_some_iff.1 h
  obtain ⟨hlt, _⟩ := List.getElem?_eq_some_iff.1 hn
  obtain ⟨value, hvalue, _⟩ := Option.bind_eq_some_iff.1 hbody
  unfold putBody putNode
  simp only [hn, List.getElem?_set_self hlt, Option.bind_some]
  unfold Node.body? Node.attribute?
  rw [lookup_map_body n.attributes key new hvalue]
  rfl

theorem bodyAt?_putAt {g old : Graph} {trail : Trail} (new : Graph)
    (h : g.bodyAt? trail = some old) : (g.putAt trail new).bodyAt? trail = some new := by
  induction trail generalizing g with
  | nil => rfl
  | cons step rest ih =>
      obtain ⟨place, key⟩ := step
      obtain ⟨body, hbody, hrest⟩ := Option.bind_eq_some_iff.1 h
      simp only [putAt, hbody, bodyAt?]
      rw [body?_putBody hbody]
      exact ih hrest

end Graph

/-- A graph with what surrounds it and the trail that led to it. -/
structure Site where
  graph : Graph
  surroundings : Surroundings := .root
  trail : Trail := []

namespace Site

/-- The root as a site. -/
def root (g : Graph) : Site := { graph := g }

/-- The site of the body under a key of the first node of a name. -/
def enter? (s : Site) (host key : String) : Option Site := do
  let place ← s.graph.place? host
  let n ← s.graph.nodes[place]?
  let body ← n.body? key
  return {
    graph := body
    surroundings := s.surroundings.inside s.graph place key
    trail := s.trail ++ [(place, key)] }

theorem trail_enter? {s inner : Site} {host key : String} (h : s.enter? host key = some inner) :
    ∃ place, s.graph.place? host = some place ∧ inner.trail = s.trail ++ [(place, key)] := by
  unfold enter? at h
  simp only [Option.bind_eq_bind, Option.bind_eq_some_iff] at h
  obtain ⟨place, hplace, n, _, body, _, hinner⟩ := h
  obtain rfl := Option.some.inj hinner
  exact ⟨place, hplace, rfl⟩

/-- The site that hosts and keys lead to; where there is no body, the host and the key. -/
def follow (s : Site) : List (String × String) → Except (String × String) Site
  | [] => .ok s
  | (host, key) :: rest =>
      match s.enter? host key with
      | none => .error (host, key)
      | some inner => inner.follow rest

/-- The graphs around the site, innermost first. -/
def enclosing (s : Site) : List Graph := s.surroundings.enclosing

/-- The root of the tree that the site is in. -/
def rootGraph (s : Site) : Graph := s.enclosing.getLast?.getD s.graph

/-- A name that is new to the whole tree. -/
def fresh (s : Site) (base : String) : String := s.surroundings.fresh s.graph base

end Site

end TensorGraph
