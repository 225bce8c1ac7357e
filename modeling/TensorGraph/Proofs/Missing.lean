import TensorGraph.Proofs.Providing
import TensorGraph.Proofs.Reading

/-!
# Reads that find nothing

A run that fails because a name is not bound has looked this name up, and the record of a watched run
shows it: only a lookup fails in this way, no kernel does, and what has been read stays on record when
a run fails. In a run of a valid graph no lookup fails, so no such run ends in this way.

## Main results

* `Evaluation.exists_reading_of_unbound` -- a lookup that fails a run is on record.
* `Evaluation.execute_ne_unbound` -- a valid graph is never run into a name that is not bound.
-/

namespace TensorGraph

/-- Whether a failure says that a name is not bound. -/
def Failure.isUnbound : Failure → Bool
  | .unbound _ => true
  | _ => false

theorem Provided.avoids_unbound {α : Type} {x : Except Failure α} (h : Provided x) :
    Avoids Failure.isUnbound x := h.of_imp fun e he => by
  cases e with
  | unbound value => rfl
  | _ => cases he

namespace Evaluation

open TensorGraph.Graph

variable {V : Type}

/-- Whether a watched computation that fails because a name is not bound has looked this name up in
vain. -/
def Watched.Candid {α : Type} (x : Watched V α) : Prop :=
  ∀ name, x.result = .error (.unbound name) → ∃ r ∈ x.readings, r.name = name ∧ r.found = none

namespace Watched.Candid

variable {α β : Type}

/-- What reads nothing is candid if it does not fail for want of a binding. -/
theorem silent {x : Except Failure α} (hx : Avoids Failure.isUnbound x) :
    Candid (Watched.silent x : Watched V α) :=
  fun _ h => absurd h (hx.ne rfl)

theorem pure (a : α) : Candid (Pure.pure a : Watched V α) := silent (.ok a)

/-- What fails first stays on record, and what fails later is put on record behind it. -/
theorem bind {x : Watched V α} {f : α → Watched V β} (hx : Candid x) (hf : ∀ a, Candid (f a)) :
    Candid (x >>= f) := by
  intro name h
  rw [result_bind] at h
  rcases bind_eq_error h with hfirst | ⟨a, hok, hnext⟩
  · rw [bind_of_error hfirst]
    exact hx name hfirst
  · obtain ⟨r, hr, hfound⟩ := hf a name hnext
    rw [bind_of_ok hok]
    exact ⟨r, List.mem_append_right _ hr, hfound⟩

theorem mapM {f : α → Watched V β} {l : List α} (h : ∀ a ∈ l, Candid (f a)) : Candid (l.mapM f) := by
  induction l with
  | nil => exact pure _
  | cons a l ih =>
      obtain ⟨ha, hl⟩ := List.forall_mem_cons.1 h
      rw [List.mapM_cons]
      exact ha.bind fun b => (ih hl).bind fun bs => pure _

end Watched.Candid

open Watched

/-- A lookup that fails is on record. -/
private theorem watchName_candid (s : Stand) (g : Graph) (env : Environment (Marked V))
    (name : String) : (watchName s g env name).Candid := by
  intro other h
  refine ⟨_, List.mem_singleton_self _, ?_⟩
  unfold watchName at h
  dsimp only at h
  split at h
  · cases h
  · rename_i hnone
    cases h
    exact ⟨rfl, hnone⟩

/-! ## Nodes and their bodies -/

section Nodes

variable [Operand V] {m : Machine V} {n : Node} {bodies : List (WatchedBody V)}

private theorem watchRounds_candid (hm : m.Supplies) {body : WatchedBody V}
    (hbody : ∀ round feeds, (body.meaning round feeds).Candid) (limit : Option Number)
    (budget iteration : Nat) (condition : Bool) (carried : List V) :
    (watchRounds n body limit budget iteration condition carried).Candid := by
  induction budget generalizing iteration condition carried with
  | zero =>
      unfold watchRounds
      split
      · exact .silent (.error rfl)
      · exact .pure _
  | succ budget ih =>
      unfold watchRounds
      split
      · refine (hbody _ _).bind fun values => ?_
        cases values with
        | nil => exact .silent (.error rfl)
        | cons next state => exact Candid.bind (.silent (hm.single _ _).avoids_unbound) fun value => ih _ _ _
      · exact .pure _

private theorem watchLoop_candid (hm : m.Supplies)
    (hbodies : ∀ body ∈ bodies, ∀ round feeds, (body.meaning round feeds).Candid)
    (operands : List V) : (watchLoop m n bodies operands).Candid := by
  unfold watchLoop
  split
  · exact .silent (.error rfl)
  · rename_i body hfound
    refine Candid.bind (.silent (provided_tripLimit hm _).avoids_unbound) fun limit =>
      Candid.bind (.silent (provided_firstCondition hm _).avoids_unbound) fun condition => ?_
    split
    · exact watchRounds_candid hm (hbodies body (List.mem_of_find?_eq_some hfound)) _ _ _ _ _
    · exact .silent (.error rfl)

private theorem watchBranch_candid (hm : m.Supplies)
    (hbodies : ∀ body ∈ bodies, ∀ round feeds, (body.meaning round feeds).Candid)
    (operands : List V) : (watchBranch n bodies operands).Candid := by
  unfold watchBranch
  have hvalue : Provided (do Operand.single (← operand n operands 0) (n.name ++ " condition")) :=
    (provided_operand _ _).bind fun _ => hm.single _ _
  refine Candid.bind (.silent hvalue.avoids_unbound) fun value => ?_
  dsimp only
  generalize hfound : bodies.find? _ = found
  cases found with
  | none => exact .silent (.error rfl)
  | some body => exact hbodies body (List.mem_of_find?_eq_some hfound) 0 _

private theorem watchNode_candid (hm : m.Supplies) (s : Stand) (g : Graph)
    (env : Environment (Marked V))
    (hbodies : ∀ body ∈ bodies, ∀ round feeds, (body.meaning round feeds).Candid) :
    (watchNode m s g env n bodies).Candid := by
  unfold watchNode
  refine Candid.bind (.mapM fun name _ => watchName_candid s g env name) fun present => ?_
  split
  · refine Candid.bind (.mapM fun name _ => ?_) fun slots => watchLoop_candid hm hbodies slots
    split
    · exact .pure _
    · exact watchName_candid s g env name
  · split
    · exact watchBranch_candid hm hbodies present
    · exact .silent (hm.compute _ _).avoids_unbound

end Nodes

/-! ## Runs -/

section Runs

variable [Operand V] {m : Machine V}

theorem avoids_unbound_bindInputs {W : Type} (g : Graph) (feeds : String → Option W)
    (inputs : List String) (b : Bindings W) :
    Avoids Failure.isUnbound (bindInputs g feeds inputs b) := by
  induction inputs generalizing b with
  | nil => exact .ok _
  | cons input rest ih =>
      unfold bindInputs
      split
      · exact .error rfl
      · exact ih _

theorem avoids_unbound_bindOutputs {W : Type} (n : Node) (outputs : List String) (values : List W)
    (b : Bindings W) : Avoids Failure.isUnbound (bindOutputs n outputs values b) := by
  induction outputs generalizing values b with
  | nil => exact .ok _
  | cons output rest ih =>
      unfold bindOutputs
      split
      · exact ih _ _
      · split
        · exact .error rfl
        · exact ih _ _

private theorem watchPlaces_candid (hm : m.Supplies) {s : Stand} {g : Graph}
    {below : List (List (WatchedMeaning V))} {outer : Environment (Marked V)}
    (hbelow : ∀ place, ∀ meaning ∈ below.getD place [], ∀ s outer feeds,
      (meaning s outer feeds : Watched V (List V)).Candid)
    (places : List Nat) (b : Bindings (Marked V)) :
    (watchPlaces m s g below outer places b).Candid := by
  induction places generalizing b with
  | nil => exact .pure _
  | cons place rest ih =>
      unfold watchPlaces
      split
      · exact ih b
      · rename_i n _
        refine Candid.bind (watchNode_candid hm s g (b :: outer) ?_) fun values =>
          Candid.bind (.silent (avoids_unbound_bindOutputs _ _ _ _)) fun bound => ih bound
        intro body hbody round feeds
        unfold watchBodies at hbody
        rw [← List.map_uncurry_zip_eq_zipWith] at hbody
        obtain ⟨⟨_, meaning⟩, hpair, rfl⟩ := List.mem_map.1 hbody
        exact hbelow place meaning (List.of_mem_zip hpair).2 _ _ feeds

/-- Whatever a watched graph fails to find is on record. -/
theorem watch_candid (hm : m.Supplies) (g : Graph) (s : Stand) (outer : Environment (Marked V))
    (feeds : String → Option V) : (watch m g s outer feeds).Candid := by
  induction g using Graph.bodyInduction generalizing s outer feeds with
  | step g ih =>
      rw [watch_eq]
      unfold watchWith
      refine Candid.bind (.silent (avoids_unbound_bindInputs _ _ _ _)) fun inputs =>
        Candid.bind (.silent (g.avoids_topologicalOrder fun _ => rfl)) fun order =>
          Candid.bind (watchPlaces_candid hm ?_ order inputs) fun b =>
            .mapM fun name _ => watchName_candid s g (b :: outer) name
      intro place meaning hmeaning s outer feeds
      rw [List.getD_eq_getElem?_getD, List.getElem?_map] at hmeaning
      cases hn : g.nodes[place]? with
      | none =>
          rw [hn] at hmeaning
          cases hmeaning
      | some n =>
          rw [hn] at hmeaning
          obtain ⟨body, hbody, rfl⟩ := List.mem_map.1 hmeaning
          exact ih n (List.mem_of_getElem? hn) body hbody s outer feeds

/-- When a run of a graph, be it valid or not, fails because a name is not bound, a lookup of this
name is on record that found nothing. -/
theorem exists_reading_of_unbound (hm : m.Supplies) {g : Graph} {feeds : Bindings V} {name : String}
    (h : execute m g feeds = .error (.unbound name)) :
    ∃ r ∈ (watchExecution m g feeds).readings, r.name = name ∧ r.found = none := by
  have hcandid : (watchExecution m g feeds).Candid :=
    (watch_candid hm g {} [] _).bind fun _ => .pure _
  exact hcandid name ((watchExecution_result m g feeds).trans h)

end Runs

/-- No run of a valid graph with the kernels of this library ends because a name is not bound,
whatever it is fed. -/
theorem execute_ne_unbound {α : Type} [Scalar α] (budget : Nat) {g : Graph} (hvalid : g.IsValid)
    (feeds : Bindings (Value α)) (name : String) :
    execute (.standard budget) g feeds ≠ .error (.unbound name) := by
  intro h
  obtain ⟨r, hr, -, hnone⟩ := exists_reading_of_unbound (Value.supplies_standard budget) h
  obtain ⟨bound, hfound, -⟩ := (watchExecution_meets (.standard budget) hvalid feeds).readings r hr
  rw [hnone] at hfound
  cases hfound

end Evaluation

end TensorGraph
