import TensorGraph.Execution.Value
import TensorGraph.Proofs.Watching

/-!
# Reads in a run of a valid graph

Three mechanisms decide what a name stands for: the checks look it up through the enclosing graphs,
the dependency order puts nodes behind what they and their bodies read, and a run looks it up in
what has been bound so far. In a valid graph they agree. A read always finds something, and what it
finds has been bound for the very definition that the checks have seen, in the current activation of
the graph that has this definition.

The invariant has two halves. What is bound bears the mark of its definition (`Lined`), and as
names are not defined twice along the enclosing graphs, nothing can be found in the wrong graph. And
when a node is run everything that it reads is bound (`Progress`), its bodies' reads included.

## Main results

* `Evaluation.resolved_of_lookup` -- what is found is bound for the right definition.
* `Evaluation.watchPlaces_meets` -- nodes in dependency order find what they read.
* `Evaluation.readings_resolved` -- and so does every node of a valid tree.
-/

namespace TensorGraph.Evaluation

open TensorGraph.Graph

variable {V : Type}

/-- Whether a reading finds what is bound for the definition of the name, and bound in the current
activation of the graph that has this definition. -/
def Reading.Resolved (r : Reading V) : Prop :=
  ∃ bound, r.found = some bound ∧
    r.graph.resolve r.stand.enclosing r.name = some bound.origin ∧
    bound.activation = r.stand.activation.drop
      ((r.graph :: r.stand.enclosing).findIdx fun scope => scope.defines r.name)

/-! ## What computations read -/

/-- Whether all readings of a computation are of one kind and what it yields is of another. -/
structure Watched.Meets {α : Type} (P : Reading V → Prop) (Q : α → Prop) (x : Watched V α) :
    Prop where
  readings : ∀ r ∈ x.readings, P r
  result : ∀ a, x.result = .ok a → Q a

namespace Watched.Meets

variable {α β : Type} {P : Reading V → Prop} {Q : α → Prop} {R : β → Prop}

theorem silent {x : Except Failure α} (h : ∀ a, x = .ok a → Q a) :
    Meets P Q (Watched.silent x) :=
  ⟨by simp, h⟩

theorem pure {a : α} (h : Q a) : Meets P Q (Pure.pure a) :=
  silent fun b hb => by
    cases hb
    exact h

theorem bind {x : Watched V α} {f : α → Watched V β} (hx : Meets P Q x)
    (hf : ∀ a, Q a → Meets P R (f a)) : Meets P R (x >>= f) := by
  cases hresult : x.result with
  | error e =>
      refine ⟨fun r hr => hx.readings r ?_, fun b hb => ?_⟩
      · rwa [bind_of_error hresult] at hr
      · rw [result_bind, hresult] at hb
        cases hb
  | ok a =>
      have hnext := hf a (hx.result a hresult)
      refine ⟨fun r hr => ?_, fun b hb => hnext.result b ?_⟩
      · rw [bind_of_ok hresult, List.mem_append] at hr
        exact hr.elim (hx.readings r) (hnext.readings r)
      · rwa [result_bind, hresult] at hb

theorem afterSilent {x : Except Failure α} {f : α → Watched V β} (h : ∀ a, Meets P R (f a)) :
    Meets P R (Watched.silent x >>= f) :=
  bind (silent fun _ _ => trivial) fun a _ => h a

theorem mapM {f : α → Watched V β} {l : List α} (h : ∀ a ∈ l, Meets P (fun _ => True) (f a)) :
    Meets P (fun _ => True) (l.mapM f) := by
  induction l with
  | nil => exact pure trivial
  | cons a l ih =>
      obtain ⟨ha, hl⟩ := List.forall_mem_cons.1 h
      rw [List.mapM_cons]
      exact ha.bind fun b _ => (ih hl).bind fun bs _ => pure trivial

end Watched.Meets

/-! ## Nodes and their bodies -/

section Nodes

variable [Operand V] {P : Reading V → Prop} {n : Node} {bodies : List (WatchedBody V)}

/-- A loop reads what its bodies read. -/
private theorem watchRounds_meets {body : WatchedBody V}
    (hbody : ∀ round feeds, (body.meaning round feeds).Meets P fun _ => True)
    (limit : Option Number) (budget iteration : Nat) (condition : Bool) (carried : List V) :
    (watchRounds n body limit budget iteration condition carried).Meets P fun _ => True := by
  induction budget generalizing iteration condition carried with
  | zero =>
      unfold watchRounds
      split
      · exact .silent fun _ _ => trivial
      · exact .pure trivial
  | succ budget ih =>
      unfold watchRounds
      split
      · refine (hbody _ _).bind fun values _ => ?_
        cases values with
        | nil => exact .silent fun _ _ => trivial
        | cons next state => exact .afterSilent fun value => ih _ _ _
      · exact .pure trivial

private theorem watchLoop_meets (m : Machine V)
    (hbodies : ∀ body ∈ bodies, ∀ round feeds, (body.meaning round feeds).Meets P fun _ => True)
    (operands : List V) : (watchLoop m n bodies operands).Meets P fun _ => True := by
  unfold watchLoop
  split
  · exact .silent fun _ _ => trivial
  · rename_i body hfound
    refine Watched.Meets.afterSilent fun limit => .afterSilent fun condition => ?_
    split
    · exact watchRounds_meets (hbodies body (List.mem_of_find?_eq_some hfound)) _ _ _ _ _
    · exact .silent fun _ _ => trivial

private theorem watchBranch_meets
    (hbodies : ∀ body ∈ bodies, ∀ round feeds, (body.meaning round feeds).Meets P fun _ => True)
    (operands : List V) : (watchBranch n bodies operands).Meets P fun _ => True := by
  unfold watchBranch
  refine Watched.Meets.afterSilent fun value => ?_
  dsimp only
  generalize hfound : bodies.find? _ = found
  cases found with
  | none => exact .silent fun _ _ => trivial
  | some body => exact hbodies body (List.mem_of_find?_eq_some hfound) 0 _

/-- A node reads its inputs, and what its bodies read. -/
theorem watchNode_meets {m : Machine V} {s : Stand} {g : Graph} {env : Environment (Marked V)}
    (hinputs : ∀ name ∈ n.inputs, name ≠ "" →
      (watchName s g env name).Meets P fun _ => True)
    (hbodies : ∀ body ∈ bodies, ∀ round feeds, (body.meaning round feeds).Meets P fun _ => True) :
    (watchNode m s g env n bodies).Meets P fun _ => True := by
  unfold watchNode
  refine Watched.Meets.bind (.mapM fun name hname => ?_) fun present _ => ?_
  · obtain ⟨hname, hne⟩ := List.mem_filter.1 hname
    exact hinputs name hname (by simpa using hne)
  · split
    · refine Watched.Meets.bind (.mapM fun name hname => ?_) fun slots _ =>
        watchLoop_meets m hbodies slots
      split
      · exact .pure trivial
      · exact hinputs name hname ‹_›
    · split
      · exact watchBranch_meets hbodies present
      · exact .silent fun _ _ => trivial

end Nodes

/-! ## What is bound bears its mark -/

/-- Whether all that is bound in a graph is marked with its definition there and with the given
activation. -/
def MarkedIn (g : Graph) (a : Activation) (b : Bindings (Marked V)) : Prop :=
  ∀ name bound, b.lookup name = some bound →
    g.localOrigin? name = some bound.origin ∧ bound.activation = a

/-- Graphs one inside the other, innermost first, with what is bound in them: all of it is marked
with its definition and with the current activation, and no name is defined twice. -/
inductive Lined : List Graph → Activation → Environment (Marked V) → Prop
  | nil (a : Activation) : Lined [] a []
  | cons {g : Graph} {scopes : List Graph} {a : Activation} {b : Bindings (Marked V)}
      {env : Environment (Marked V)} (marked : MarkedIn g a b)
      (apart : ∀ name, g.defines name = true → ¬ definedBy scopes name)
      (outside : Lined scopes (a.drop 1) env) : Lined (g :: scopes) a (b :: env)

/-- What is found is bound for the right definition, in the current activation of its graph. -/
theorem resolved_of_lookup {scopes : List Graph} {a : Activation} {env : Environment (Marked V)}
    (h : Lined scopes a env) {name : String} {bound : Marked V}
    (hfound : lookup? env name = some bound) :
    (scopes.findSome? fun scope => scope.localOrigin? name) = some bound.origin ∧
      bound.activation = a.drop (scopes.findIdx fun scope => scope.defines name) := by
  induction h with
  | nil a => cases hfound
  | @cons g scopes a b env hmarked hapart _ ih =>
      rw [lookup?_cons] at hfound
      rw [List.findSome?_cons, List.findIdx_cons]
      cases hhere : b.lookup name with
      | some found =>
          rw [hhere] at hfound
          obtain rfl : found = bound := by simpa using hfound
          obtain ⟨horigin, hactivation⟩ := hmarked name found hhere
          have hdefines : g.defines name = true := by
            rw [← localOrigin?_isSome, horigin]
            rfl
          simp [horigin, hdefines, hactivation]
      | none =>
          rw [hhere] at hfound
          obtain ⟨horigin, hactivation⟩ := ih (by simpa using hfound)
          -- a name that is defined further out is not defined here
          have hnot : g.defines name = false := by
            refine Bool.eq_false_iff.2 fun hdefines => hapart name hdefines ?_
            rw [← findSome?_localOrigin?, horigin]
            rfl
          have hnone : g.localOrigin? name = none := by
            rw [← Option.not_isSome_iff_eq_none, localOrigin?_isSome, hnot]
            simp
          simp only [hnone, hnot, horigin, hactivation, cond_false, List.drop_drop, true_and]
          rw [Nat.add_comm]

/-- A name that is bound is read as it should be. -/
private theorem watchName_meets {s : Stand} {g : Graph} {env : Environment (Marked V)}
    (h : Lined (g :: s.enclosing) s.activation env) {name : String}
    (hbound : (lookup? env name).isSome = true) :
    (watchName s g env name).Meets Reading.Resolved fun _ => True := by
  refine ⟨fun r hr => ?_, fun _ _ => trivial⟩
  obtain ⟨bound, hbound⟩ := Option.isSome_iff_exists.1 hbound
  obtain rfl : r = ⟨s, g, name, lookup? env name⟩ := by simpa [watchName] using hr
  exact ⟨bound, hbound, resolved_of_lookup h hbound⟩

/-! ## What has been bound -/

/-- What is bound in a graph when its inputs are and the nodes at some places have been run. -/
structure Progress (g : Graph) (a : Activation) (done : List Nat) (b : Bindings (Marked V)) :
    Prop where
  marked : MarkedIn g a b
  inputs : ∀ name ∈ g.inputs, (b.lookup name).isSome = true
  results : ∀ place ∈ done, ∀ n, g.nodes[place]? = some n → ∀ value ∈ n.results,
    (b.lookup value).isSome = true

/-- Whether what a graph may look up around it is bound there and bears its marks. The empty name
is looked up only where an input bears it. -/
structure Supplied (s : Stand) (g : Graph) (outer : Environment (Marked V)) : Prop where
  lined : Lined s.enclosing (s.activation.drop 1) outer
  bound : ∀ name, definedBy s.enclosing name → name ∈ g.outerReferences ∨ name = "" →
    (lookup? outer name).isSome = true

section Progress

variable {s : Stand} {g : Graph} {a : Activation} {outer : Environment (Marked V)}
  {b c : Bindings (Marked V)} {done : List Nat}

theorem isSome_lookup?_cons {name : String} :
    (lookup? (b :: outer) name).isSome = true ↔
      (b.lookup name).isSome = true ∨ (lookup? outer name).isSome = true := by
  rw [lookup?_cons, Option.isSome_or, Bool.or_eq_true]

/-- Inputs are bound before any node is run. -/
theorem Progress.start {feeds : String → Option V}
    (h : bindInputs g (fun name => (feeds name).map fun value =>
      (⟨value, .input g, a⟩ : Marked V)) g.inputs [] = .ok b) : Progress g a [] b := by
  obtain ⟨hfed, hlookup⟩ := bindInputs_ok h
  refine ⟨fun name bound hbound => ?_, fun name hname => ?_, fun _ hplace => by cases hplace⟩
  · rw [hlookup] at hbound
    split at hbound
    · rename_i hname
      obtain ⟨value, -, rfl⟩ := Option.map_eq_some_iff.1 hbound
      refine ⟨?_, rfl⟩
      rw [localOrigin?, if_pos (by simpa [isInput] using hname)]
    · cases hbound
  · rw [hlookup, if_pos hname]
    exact hfed name hname

/-- What a node of a scoped graph yields is defined there by this node. -/
private theorem localOrigin?_of_mem_results {visible : String → Prop} (h : Scoped visible g)
    {n : Node} (hn : n ∈ g.nodes) {value : String} (hvalue : value ∈ n.results) :
    g.localOrigin? value = some (.node g n) := by
  have hresult : value ∈ g.results := mem_results.2 ⟨n, hn, hvalue⟩
  obtain ⟨k, hk⟩ := Option.isSome_iff_exists.1 (producer?_isSome_iff.2 hresult)
  obtain ⟨hmem, hyields⟩ := producer?_eq_some hk
  obtain rfl : k = n :=
    List.inj_on_of_nodup_map h.names hmem hn (h.once value k hmem n hn hyields hvalue)
  rw [localOrigin?, if_neg (by simpa [isInput] using h.apart value hresult), hk]
  rfl

/-- When a node has been run what it yields is bound. -/
theorem Progress.next {visible : String → Prop} (h : Scoped visible g) (hb : Progress g a done b)
    {place : Nat} {n : Node} (hn : g.nodes[place]? = some n) {values : List V}
    (hc : bindOutputs n n.outputs
      (values.map fun value => (⟨value, .node g n, a⟩ : Marked V)) b = .ok c) :
    Progress g a (done ++ [place]) c := by
  have hmem : n ∈ g.nodes := List.mem_of_getElem? hn
  have hnodup : n.results.Nodup := (List.nodup_flatMap.1 h.results).1 n hmem
  obtain ⟨hyields, hkept⟩ := bindOutputs_ok hnodup hc
  have hyield {value : String} (hvalue : value ∈ n.results) :
      ∃ bound, c.lookup value = some bound ∧ bound.origin = .node g n ∧ bound.activation = a := by
    obtain ⟨hout, hne⟩ := Node.mem_results.1 hvalue
    obtain ⟨i, hi⟩ := List.getElem?_of_mem hout
    obtain ⟨bound, hbound, hlookup⟩ := hyields i value hi hne
    rw [List.getElem?_map] at hbound
    obtain ⟨v, -, rfl⟩ := Option.map_eq_some_iff.1 hbound
    exact ⟨_, hlookup, rfl, rfl⟩
  have hkeeps {name : String} (hname : (b.lookup name).isSome = true) :
      (c.lookup name).isSome = true := by
    by_cases hresult : name ∈ n.results
    · obtain ⟨bound, hbound, -⟩ := hyield hresult
      simp [hbound]
    · rwa [hkept name hresult]
  refine ⟨fun name bound hbound => ?_, fun name hname => hkeeps (hb.inputs name hname),
    fun other hother k hk value hvalue => ?_⟩
  · by_cases hresult : name ∈ n.results
    · obtain ⟨found, hfound, horigin, hactivation⟩ := hyield hresult
      obtain rfl : found = bound := by simpa [hfound] using hbound
      exact ⟨horigin ▸ localOrigin?_of_mem_results h hmem hresult, hactivation⟩
    · exact hb.marked name bound (hkept name hresult ▸ hbound)
  · rcases List.mem_append.1 hother with hdone | hhere
    · exact hkeeps (hb.results other hdone k hk value hvalue)
    · obtain rfl : other = place := by simpa using hhere
      obtain rfl : k = n := by simpa [hn] using hk.symm
      obtain ⟨bound, hbound, -⟩ := hyield hvalue
      simp [hbound]

/-- What a node reads is bound when the nodes that it depends on have been run. -/
theorem Progress.bound_of_mem_reads (hb : Progress g a done b)
    (hscoped : ScopedTree (definedBy s.enclosing) g) (hs : Supplied s g outer)
    {place : Nat} {n : Node} (hn : g.nodes[place]? = some n)
    (hready : ∀ j, g.DependsOn place j → j ∈ done) {name : String} (hname : name ∈ n.reads) :
    (lookup? (b :: outer) name).isSome = true := by
  rw [isSome_lookup?_cons]
  cases hdefined : g.defines name with
  | true =>
      refine .inl ?_
      rcases defines_iff.1 hdefined with hinput | hresult
      · exact hb.inputs name hinput
      · obtain ⟨j, hj⟩ := Option.isSome_iff_exists.1 (producerPlace?_isSome_iff.2 hresult)
        obtain ⟨k, hk, hyields⟩ := producerPlace?_mem hj
        exact hb.results j (hready j ⟨n, hn, name, hname, hj⟩) k hk name hyields
  | false =>
      have houter : name ∈ g.outerReferences :=
        mem_outerReferences_iff.2 ⟨hdefined, .inr ⟨n, List.mem_of_getElem? hn, hname⟩⟩
      exact .inr (hs.bound name (hscoped.visible_of_mem_outerReferences houter) (.inl houter))

/-- What a graph yields is bound when all of its nodes have been run. -/
theorem Progress.bound_of_mem_outputs (hb : Progress g a done b)
    (hscoped : ScopedTree (definedBy s.enclosing) g) (hs : Supplied s g outer)
    (hall : ∀ place < g.nodes.length, place ∈ done) {name : String} (hname : name ∈ g.outputs) :
    (lookup? (b :: outer) name).isSome = true := by
  rw [isSome_lookup?_cons]
  cases hdefined : g.defines name with
  | true =>
      refine .inl ?_
      rcases defines_iff.1 hdefined with hinput | hresult
      · exact hb.inputs name hinput
      · obtain ⟨n, hn, hyields⟩ := mem_results.1 hresult
        obtain ⟨place, hplace, rfl⟩ := List.mem_iff_getElem.1 hn
        exact hb.results place (hall place hplace) _ (List.getElem?_eq_getElem hplace) name hyields
  | false =>
      have hvisible : definedBy s.enclosing name :=
        (hscoped.here.yielded name hname).resolve_right (by simp [hdefined])
      refine .inr (hs.bound name hvisible ?_)
      by_cases hempty : name = ""
      · exact .inr hempty
      · exact .inl (mem_outerReferences_iff.2 ⟨hdefined, .inl ⟨hname, hempty⟩⟩)

/-- A graph of which something is bound stands in line with the graphs around it. -/
theorem Progress.lined (hb : Progress g s.activation done b)
    (hscoped : Scoped (definedBy s.enclosing) g) (hs : Supplied s g outer) :
    Lined (g :: s.enclosing) s.activation (b :: outer) :=
  .cons hb.marked (fun name hname => (defines_iff.1 hname).elim (hscoped.newInputs name)
    (hscoped.newResults name)) hs.lined

/-- A body of a node that is run is supplied with what it may look up. -/
theorem Progress.supplied (hb : Progress g s.activation done b)
    (hscoped : ScopedTree (definedBy s.enclosing) g) (hs : Supplied s g outer)
    {place : Nat} {n : Node} (hn : g.nodes[place]? = some n)
    (hready : ∀ j, g.DependsOn place j → j ∈ done) {body : String × Graph}
    (hbody : body ∈ n.bodies) (entry : Entry) :
    Supplied (s.enter g entry) body.2 (b :: outer) := by
  refine ⟨hb.lined hscoped.here hs, fun name hvisible hname => ?_⟩
  rcases hname with hread | rfl
  · exact hb.bound_of_mem_reads hscoped hs hn hready (Node.mem_reads.2 (.inr ⟨body, hbody, hread⟩))
  · rw [isSome_lookup?_cons]
    obtain ⟨scope, hscope, hdefines⟩ := hvisible
    rcases List.mem_cons.1 hscope with rfl | hscope
    · rcases defines_iff.1 hdefines with hinput | hresult
      · exact .inl (hb.inputs "" hinput)
      · exact absurd rfl (ne_empty_of_mem_results hresult)
    · exact .inr (hs.bound "" ⟨scope, hscope, hdefines⟩ (.inr rfl))

end Progress

/-! ## Runs of valid graphs -/

section Runs

variable [Operand V] {m : Machine V} {s : Stand} {g : Graph} {outer : Environment (Marked V)}

/-- Nodes that are run in dependency order find what they read, and what they yield gets bound. -/
theorem watchPlaces_meets (hscoped : ScopedTree (definedBy s.enclosing) g)
    (hs : Supplied s g outer)
    (hbodies : ∀ n ∈ g.nodes, ∀ body ∈ n.bodies, ∀ (entry : Entry) (env : Environment (Marked V)),
      Supplied (s.enter g entry) body.2 env → ∀ feeds,
        (watch m body.2 (s.enter g entry) env feeds).Meets Reading.Resolved fun _ => True)
    {order : List Nat} (hready : ∀ done place rest, order = done ++ place :: rest →
      ∀ j, g.DependsOn place j → j ∈ done)
    {done rest : List Nat} (horder : order = done ++ rest) {b : Bindings (Marked V)}
    (hb : Progress g s.activation done b) :
    (watchPlaces m s g (g.nodes.map fun n => n.bodies.map fun body => watch m body.2) outer rest
      b).Meets Reading.Resolved (Progress g s.activation order) := by
  induction rest generalizing done b with
  | nil =>
      rw [List.append_nil] at horder
      exact .pure (horder ▸ hb)
  | cons place rest ih =>
      have hnext : order = (done ++ [place]) ++ rest := by simpa using horder
      have hdone := hready done place rest horder
      unfold watchPlaces
      cases hn : g.nodes[place]? with
      | none =>
          refine ih hnext ⟨hb.marked, hb.inputs, fun other hother k hk => ?_⟩
          refine hb.results other ((List.mem_append.1 hother).resolve_right fun hmem => ?_) k hk
          obtain rfl : other = place := by simpa using hmem
          rw [hn] at hk
          cases hk
      | some n =>
          have hmem : n ∈ g.nodes := List.mem_of_getElem? hn
          have hlined := hb.lined hscoped.here hs
          have hbelow : (g.nodes.map fun n => n.bodies.map fun body => watch m body.2).getD place []
              = n.bodies.map fun body => watch m body.2 := by
            rw [List.getD_eq_getElem?_getD, List.getElem?_map, hn]
            rfl
          refine Watched.Meets.bind (watchNode_meets (fun name hname hne => ?_) ?_) fun values _ =>
            Watched.Meets.bind (.silent fun c hc => hb.next hscoped.here hn hc) fun c hc =>
              ih hnext hc
          · exact watchName_meets hlined (hb.bound_of_mem_reads hscoped hs hn hdone
              (Node.mem_reads.2 (.inl ⟨hname, hne⟩)))
          · rw [hbelow]
            unfold watchBodies
            rw [List.zipWith_map_right, List.zipWith_self]
            intro watched hwatched round feeds
            obtain ⟨body, hbody, rfl⟩ := List.mem_map.1 hwatched
            exact hbodies n hmem body hbody _ _ (hb.supplied hscoped hs hn hdone hbody _) feeds

/-- In a scoped tree every read of a graph finds what is bound for the right definition, provided
that the graph is supplied from outside. -/
theorem watch_meets (hscoped : ScopedTree (definedBy s.enclosing) g) (hs : Supplied s g outer)
    (feeds : String → Option V) :
    (watch m g s outer feeds).Meets Reading.Resolved fun _ => True := by
  induction g using Graph.bodyInduction generalizing s outer feeds with
  | step g ih =>
    have hbodies : ∀ n ∈ g.nodes, ∀ body ∈ n.bodies,
        ∀ (entry : Entry) (env : Environment (Marked V)),
        Supplied (s.enter g entry) body.2 env → ∀ feeds,
          (watch m body.2 (s.enter g entry) env feeds).Meets Reading.Resolved fun _ => True := by
      intro n hn body hbody entry env hsupplied feeds
      have hbelow : ScopedTree (definedBy (g :: s.enclosing)) body.2 :=
        definedBy_cons g s.enclosing ▸ hscoped.body hn hbody
      exact ih n hn body hbody hbelow hsupplied feeds
    obtain ⟨order, horder⟩ := hscoped.here.ordered
    obtain ⟨hschedule, -⟩ := topologicalOrder_ok horder
    have hready : ∀ done place rest, order = done ++ place :: rest →
        ∀ j, g.DependsOn place j → j ∈ done := by
      intro done place rest hsplit j hdepends
      have := scheduleFrom_of_ready g.dependencies _ [] (hschedule.symm.trans hsplit)
      simp only [isReady, Bool.and_eq_true, List.all_eq_true, List.contains_eq_mem,
        List.append_nil, List.mem_reverse, decide_eq_true_eq] at this
      exact this.2 j (mem_dependencies.2 hdepends)
    rw [watch_eq]
    unfold watchWith
    refine Watched.Meets.bind (.silent fun inputs => Progress.start) fun inputs hinputs => ?_
    refine Watched.Meets.bind (Q := (· = order)) (.silent fun found hfound => ?_) fun _ hfound => ?_
    · rw [horder] at hfound
      cases hfound
      rfl
    · subst hfound
      refine (watchPlaces_meets hscoped hs hbodies hready rfl hinputs).bind fun b hb => ?_
      refine .mapM fun name hname => watchName_meets (hb.lined hscoped.here hs) ?_
      exact hb.bound_of_mem_outputs hscoped hs
        (fun place hplace => (mem_order_iff horder).2 hplace) hname

/-- Every read of an execution of a valid graph finds what is bound for the right definition. -/
theorem watchExecution_meets (m : Machine V) {g : Graph} (hvalid : g.IsValid) (feeds : Bindings V) :
    (watchExecution m g feeds).Meets Reading.Resolved fun _ => True := by
  have hscoped : ScopedTree (definedBy []) g :=
    ScopedTree.congr hvalid.scopedTree fun value => by simp [definedBy]
  have hs : Supplied ({} : Stand) g ([] : Environment (Marked V)) := by
    refine ⟨.nil _, ?_⟩
    rintro name ⟨_, hmem, _⟩
    cases hmem
  unfold watchExecution
  exact (watch_meets (s := {}) hscoped hs _).bind fun values _ => .pure trivial

/-- In an execution of a valid graph no read finds nothing: whatever a node or an output of the
graph or of a body at any depth looks up, in any round, is bound for the definition to which the
name resolves there, in the current activation of the graph that has this definition. Watching the
reads does not change the execution. -/
theorem readings_resolved (m : Machine V) {g : Graph} (hvalid : g.IsValid) (feeds : Bindings V) :
    (watchExecution m g feeds).result = execute m g feeds ∧
      ∀ r ∈ (watchExecution m g feeds).readings, r.Resolved :=
  ⟨watchExecution_result m g feeds, (watchExecution_meets m hvalid feeds).readings⟩

end Runs

/-- A branch that adds a step from two graphs further out to what the loop around it carries. -/
def stepping : Graph where
  outputs := ["stepped"]
  nodes := [{ name := "step", op := "Add", inputs := ["state", "size"], outputs := ["stepped"] }]

/-- A branch that hands on what the loop around it carries. -/
def staying : Graph where
  outputs := ["state"]

/-- What a loop does again and again: a step, if there is to be one. -/
def walking : Graph where
  inputs := ["round", "further", "state"]
  outputs := ["further", "next"]
  nodes := [{ name := "choose", op := "If", inputs := ["further"], outputs := ["next"]
              attributes := [("then_branch", .body stepping), ("else_branch", .body staying)] }]

/-- A loop whose body holds a conditional that reads what a node further down the list yields. -/
def pacing : Graph where
  inputs := ["count", "start"]
  outputs := ["end"]
  nodes := [
    { name := "repeat", op := "Loop", inputs := ["count", "", "start"], outputs := ["end"]
      attributes := [("body", .body walking)] },
    { name := "measure", op := "Abs", inputs := ["start"], outputs := ["size"] }]

/-- Three rounds that start at minus two. -/
def threePaces : Bindings (Value Float) :=
  [("count", Operand.scalar .int64 (.int 3)), ("start", Operand.scalar .float32 (.int (-2)))]

theorem readings_resolved_pacing :
    pacing.IsValid ∧ (watchExecution (.standard 8) pacing threePaces).result =
        execute (.standard 8) pacing threePaces ∧
      ∀ r ∈ (watchExecution (.standard 8) pacing threePaces).readings, r.Resolved := by
  have hvalid : pacing.IsValid := by
    unfold IsValid
    decide +kernel
  exact ⟨hvalid, readings_resolved (.standard 8) hvalid threePaces⟩

end TensorGraph.Evaluation
