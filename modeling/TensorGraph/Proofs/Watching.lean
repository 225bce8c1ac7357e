import TensorGraph.Proofs.Running

/-!
# Watched runs

A run as before that keeps a record of every read: in which activation of which graph a name was
looked up, and what was found. What is bound bears a mark that says where its name is defined and
in which activation it was bound. The record changes nothing: without it and without the marks a
watched run is a run.

A graph may be activated many times in one run, a loop body once a round. An activation is told
from all others by the bodies that have been entered on the way to it.

## Main results

* `Evaluation.watch_result` -- a watched run is a run.
* `Evaluation.watchExecution_result` -- and so for a graph that stands by itself.
-/

namespace TensorGraph.Evaluation

open Operand TensorGraph.Graph

/-- One way into a body: the place of its host, its key, and the round of the host. -/
structure Entry where
  host : Nat
  key : String
  round : Nat
  deriving DecidableEq, Repr

/-- An activation of a graph: the ways into it and into the graphs around it, innermost first. -/
abbrev Activation := List Entry

/-- Where a graph is run: inside which graphs, innermost first, and in which activation. -/
structure Stand where
  enclosing : List Graph := []
  activation : Activation := []

/-- The stand of a body of `g` that is entered. -/
def Stand.enter (s : Stand) (g : Graph) (entry : Entry) : Stand :=
  { enclosing := g :: s.enclosing, activation := entry :: s.activation }

/-- A value that is bound to a name, marked with the definition of the name and the activation of
the graph that defines it. -/
structure Marked (V : Type) where
  value : V
  origin : Origin
  activation : Activation

/-- A name that is looked up in a graph, and what is found. -/
structure Reading (V : Type) where
  stand : Stand
  graph : Graph
  name : String
  found : Option (Marked V)

/-- A computation and what it reads on its way. One that fails has read what it had read before. -/
structure Watched (V α : Type) where
  readings : List (Reading V)
  result : Except Failure α

namespace Watched

variable {V α β : Type}

/-- A computation that reads nothing. -/
def silent (result : Except Failure α) : Watched V α := { readings := [], result }

/-- A computation followed by another, unless it fails. -/
def andThen (x : Watched V α) (f : α → Watched V β) : Watched V β :=
  match x.result with
  | .ok a => { readings := x.readings ++ (f a).readings, result := (f a).result }
  | .error e => { readings := x.readings, result := .error e }

instance : Monad (Watched V) where
  pure a := silent (.ok a)
  bind := andThen

@[simp] theorem result_silent (x : Except Failure α) : (silent x : Watched V α).result = x := rfl

@[simp] theorem readings_silent (x : Except Failure α) :
    (silent x : Watched V α).readings = [] := rfl

@[simp] theorem result_pure (a : α) : (pure a : Watched V α).result = .ok a := rfl

@[simp] theorem result_bind (x : Watched V α) (f : α → Watched V β) :
    (x >>= f).result = x.result >>= fun a => (f a).result := by
  obtain ⟨readings, result⟩ := x
  cases result <;> rfl

theorem bind_of_ok {x : Watched V α} {a : α} (h : x.result = .ok a) (f : α → Watched V β) :
    (x >>= f).readings = x.readings ++ (f a).readings := by
  obtain ⟨readings, result⟩ := x
  subst h
  rfl

theorem bind_of_error {x : Watched V α} {e : Failure} (h : x.result = .error e)
    (f : α → Watched V β) : (x >>= f).readings = x.readings := by
  obtain ⟨readings, result⟩ := x
  subst h
  rfl

/-- What is read is read in the same order however computations are put together. -/
theorem andThen_assoc {γ : Type} (x : Watched V α) (f : α → Watched V β) (h : β → Watched V γ) :
    (x.andThen f).andThen h = x.andThen fun a => (f a).andThen h := by
  obtain ⟨readings, result⟩ := x
  cases result with
  | error e => rfl
  | ok a =>
      unfold andThen
      cases hf : (f a).result with
      | error e => simp [hf]
      | ok b => simp [hf, List.append_assoc]

theorem andThen_pure (x : Watched V α) : (x.andThen fun a => silent (.ok a)) = x := by
  obtain ⟨readings, result⟩ := x
  cases result with
  | error e => rfl
  | ok a => exact congrArg (Watched.mk · _) (List.append_nil _)

instance : LawfulMonad (Watched V) := .mk' (Watched V) andThen_pure (fun _ _ => rfl) andThen_assoc

theorem result_mapM {f : α → Watched V β} {k : α → Except Failure β} {l : List α}
    (h : ∀ a ∈ l, (f a).result = k a) : (l.mapM f).result = l.mapM k := by
  induction l with
  | nil => rfl
  | cons a l ih =>
      obtain ⟨ha, hl⟩ := List.forall_mem_cons.1 h
      simp only [List.mapM_cons, result_bind, ha, ih hl, result_pure]
      rfl

end Watched

open Watched

variable {V : Type}

/-! ## Watching a run -/

/-- Looks up a name that has to be bound. -/
def watchName (s : Stand) (g : Graph) (env : Environment (Marked V)) (name : String) :
    Watched V V :=
  { readings := [{ stand := s, graph := g, name, found := lookup? env name }]
    result := match lookup? env name with
      | some bound => .ok bound.value
      | none => .error (.unbound name) }

/-- What a watched graph does where it stands, from what is bound around it and what it is fed. -/
abbrev WatchedMeaning (V : Type) :=
  Stand → Environment (Marked V) → (String → Option V) → Watched V (List V)

/-- A body of a watched node: its key, the graph, and what it does in each round of the node. -/
structure WatchedBody (V : Type) where
  key : String
  graph : Graph
  meaning : Nat → (String → Option V) → Watched V (List V)

/-- The bodies of the node at a place of a graph, as they are watched from there. -/
def watchBodies (s : Stand) (g : Graph) (env : Environment (Marked V)) (place : Nat) (n : Node)
    (meanings : List (WatchedMeaning V)) : List (WatchedBody V) :=
  List.zipWith
    (fun body meaning =>
      { key := body.1, graph := body.2
        meaning := fun round => meaning (s.enter g ⟨place, body.1, round⟩) env })
    n.bodies meanings

section Nodes

variable [Operand V]

/-- The rounds of a watched loop. -/
def watchRounds (n : Node) (body : WatchedBody V) (limit : Option Number) :
    Nat → Nat → Bool → List V → Watched V (List V)
  | budget, iteration, condition, carried =>
      if condition && limit.all fun count => (Number.ofNat iteration).below count then
        match budget with
        | 0 => silent (.error (.endless ("loop " ++ n.name)))
        | budget + 1 => do
            match ← body.meaning iteration
                (loopFeeds body.graph.inputs iteration condition carried) with
            | [] => silent (.error (.missingOperand n.name))
            | next :: state =>
                let value ← silent (single next (n.name ++ " condition"))
                watchRounds n body limit budget (iteration + 1) (holds value) state
      else pure carried

/-- Runs a watched loop. -/
def watchLoop (m : Machine V) (n : Node) (bodies : List (WatchedBody V)) (operands : List V) :
    Watched V (List V) :=
  match bodies.find? fun body => body.key == "body" with
  | none => silent (.error (.loopWithoutBody n.name))
  | some body => do
      let limit ← silent (tripLimit n operands)
      let condition ← silent (firstCondition n operands)
      if body.graph.outputs.length = (operands.drop 2).length + 1 then
        watchRounds n body limit m.budget 0 condition (operands.drop 2)
      else silent (.error (.loopScanOutputs n.name))

/-- Runs the branch of a watched conditional that its operand chooses. -/
def watchBranch (n : Node) (bodies : List (WatchedBody V)) (operands : List V) :
    Watched V (List V) := do
  let value ← silent (do single (← operand n operands 0) (n.name ++ " condition"))
  let branch := if holds value then "then_branch" else "else_branch"
  match bodies.find? fun body => body.key == branch with
  | none => silent (.error (.ifWithoutBranch n.name branch))
  | some body => body.meaning 0 unfed

/-- The values that a watched node yields. -/
def watchNode (m : Machine V) (s : Stand) (g : Graph) (env : Environment (Marked V)) (n : Node)
    (bodies : List (WatchedBody V)) : Watched V (List V) := do
  let present ← (n.inputs.filter (· != "")).mapM (watchName s g env)
  if n.op = "Loop" then
    let slots ← n.inputs.mapM fun name =>
      if name = "" then pure (truth true) else watchName s g env name
    watchLoop m n bodies slots
  else if n.op = "If" then watchBranch n bodies present
  else silent (m.compute n present)

/-- Runs the watched nodes at the given places one after the other. -/
def watchPlaces (m : Machine V) (s : Stand) (g : Graph) (below : List (List (WatchedMeaning V)))
    (outer : Environment (Marked V)) :
    List Nat → Bindings (Marked V) → Watched V (Bindings (Marked V))
  | [], bindings => pure bindings
  | place :: rest, bindings =>
      match g.nodes[place]? with
      | none => watchPlaces m s g below outer rest bindings
      | some n => do
          let env := bindings :: outer
          let values ← watchNode m s g env n
            (watchBodies s g env place n (below.getD place []))
          let marked := values.map fun value => ⟨value, .node g n, s.activation⟩
          let bound ← silent (bindOutputs n n.outputs marked bindings)
          watchPlaces m s g below outer rest bound

/-- Runs a watched graph, given what its bodies do, node by node. -/
def watchWith (m : Machine V) (g : Graph) (below : List (List (WatchedMeaning V))) :
    WatchedMeaning V :=
  fun s outer feeds => do
    let marked (name : String) := (feeds name).map fun value => ⟨value, .input g, s.activation⟩
    let inputs ← silent (bindInputs g marked g.inputs [])
    let order ← silent g.topologicalOrder
    let bindings ← watchPlaces m s g below outer order inputs
    g.outputs.mapM (watchName s g (bindings :: outer))

/-- What a watched graph does. -/
def watch (m : Machine V) : Graph → WatchedMeaning V := Graph.fold (watchWith m)

theorem watch_eq (m : Machine V) (g : Graph) :
    watch m g = watchWith m g (g.nodes.map fun n => n.bodies.map fun body => watch m body.2) :=
  Graph.fold_eq (watchWith m) g

/-- Runs a watched graph that stands by itself on named values, and names its outputs. -/
def watchExecution (m : Machine V) (g : Graph) (feeds : Bindings V) :
    Watched V (List (String × V)) := do
  let values ← watch m g {} [] fun name => (feeds.lookup name).or (unfed name)
  return (g.outputs.zip values).filter fun (name, _) => Inherited.keeps name

end Nodes

/-! ## A watched run is a run -/

/-- Bindings without their marks. -/
def unmark (b : Bindings (Marked V)) : Bindings V := b.map fun (name, bound) => (name, bound.value)

theorem lookup_unmark (b : Bindings (Marked V)) (name : String) :
    (unmark b).lookup name = (b.lookup name).map Marked.value := by
  induction b with
  | nil => rfl
  | cons entry b ih =>
      obtain ⟨key, bound⟩ := entry
      unfold unmark at ih ⊢
      rw [List.map_cons, List.lookup_cons, List.lookup_cons, ih]
      cases name == key <;> rfl

theorem lookup?_unmark (env : Environment (Marked V)) (name : String) :
    lookup? (env.map unmark) name = (lookup? env name).map Marked.value := by
  induction env with
  | nil => rfl
  | cons b env ih =>
      rw [List.map_cons, lookup?_cons, lookup?_cons, ih, lookup_unmark]
      cases b.lookup name <;> rfl

theorem watchName_result (s : Stand) (g : Graph) (env : Environment (Marked V)) (name : String) :
    (watchName s g env name).result = lookup (env.map unmark) name := by
  unfold watchName lookup
  rw [lookup?_unmark]
  cases lookup? env name <;> rfl

theorem bindInputs_unmark (g : Graph) (feeds : String → Option V) (mark : V → Marked V)
    (hmark : ∀ value, (mark value).value = value) (inputs : List String)
    (b : Bindings (Marked V)) :
    (bindInputs g (fun name => (feeds name).map mark) inputs b).map unmark =
      bindInputs g feeds inputs (unmark b) := by
  induction inputs generalizing b with
  | nil => rfl
  | cons input rest ih =>
      unfold bindInputs
      cases hfed : feeds input with
      | none => rfl
      | some value =>
          have hcons : unmark ((input, mark value) :: b) = (input, value) :: unmark b := by
            simp [unmark, hmark]
          simpa only [Option.map_some, hcons] using ih ((input, mark value) :: b)

theorem bindOutputs_unmark (n : Node) (mark : V → Marked V)
    (hmark : ∀ value, (mark value).value = value) (outputs : List String) (values : List V)
    (b : Bindings (Marked V)) :
    (bindOutputs n outputs (values.map mark) b).map unmark =
      bindOutputs n outputs values (unmark b) := by
  induction outputs generalizing values b with
  | nil => rfl
  | cons output rest ih =>
      unfold bindOutputs
      by_cases habsent : output = ""
      · simpa only [if_pos habsent, List.map_drop] using ih (values.drop 1) b
      · rw [if_neg habsent, if_neg habsent]
        cases values with
        | nil => rfl
        | cons value others =>
            have hcons : unmark ((output, mark value) :: b) = (output, value) :: unmark b := by
              simp [unmark, hmark]
            simpa only [List.map_cons, hcons] using ih others ((output, mark value) :: b)

/-- Whether watched bodies do what the bodies do. -/
def SameBodies (env : Environment V) (bodies : List (WatchedBody V)) (bodies' : List (Body V)) :
    Prop :=
  List.Forall₂ (fun body body' => body'.key = body.key ∧ body'.graph = body.graph ∧
    ∀ round feeds, (body.meaning round feeds).result = body'.meaning env feeds) bodies bodies'

/-- The watched body under a key does what the body under it does. -/
private theorem SameBodies.find? {env : Environment V} {bodies : List (WatchedBody V)}
    {bodies' : List (Body V)} (h : SameBodies env bodies bodies') (key : String) :
    Option.Rel (fun body body' => body'.key = body.key ∧ body'.graph = body.graph ∧
      ∀ round feeds, (body.meaning round feeds).result = body'.meaning env feeds)
      (bodies.find? fun body => body.key == key)
      (bodies'.find? fun body => body.key == key) := by
  induction h with
  | nil => exact .none
  | @cons body body' _ _ hbody _ ih =>
      rw [List.find?_cons, List.find?_cons, hbody.1]
      cases body.key == key
      · exact ih
      · exact .some hbody

section Erasure

variable [Operand V]

private theorem watchRounds_result (n : Node) {env : Environment V} {body : WatchedBody V}
    {body' : Body V} (hgraph : body'.graph = body.graph)
    (hmeaning : ∀ round feeds, (body.meaning round feeds).result = body'.meaning env feeds)
    (limit : Option Number) (budget iteration : Nat) (condition : Bool) (carried : List V) :
    (watchRounds n body limit budget iteration condition carried).result =
      rounds n body' env limit budget iteration condition carried := by
  induction budget generalizing iteration condition carried with
  | zero =>
      unfold watchRounds rounds
      split <;> rfl
  | succ budget ih =>
      unfold watchRounds rounds
      split
      · rw [result_bind, hmeaning, hgraph]
        refine congrArg _ (funext fun values => ?_)
        cases values with
        | nil => rfl
        | cons next state => simp only [result_bind, result_silent, ih]
      · rfl

private theorem watchLoop_result (m : Machine V) (n : Node) {env : Environment V}
    {bodies : List (WatchedBody V)} {bodies' : List (Body V)}
    (h : SameBodies env bodies bodies') (operands : List V) :
    (watchLoop m n bodies operands).result = runLoop m n bodies' env operands := by
  have hfound := h.find? "body"
  rw [runLoop_eq]
  unfold watchLoop
  revert hfound
  generalize (bodies.find? fun body => body.key == "body") = found
  generalize (bodies'.find? fun body => body.key == "body") = found'
  rintro (⟨-, hgraph, hmeaning⟩ | -)
  · simp only [result_bind, result_silent, apply_ite Watched.result, hgraph,
      watchRounds_result n hgraph hmeaning]
  · rfl

private theorem watchBranch_result (n : Node) {env : Environment V}
    {bodies : List (WatchedBody V)} {bodies' : List (Body V)}
    (h : SameBodies env bodies bodies') (operands : List V) :
    (watchBranch n bodies operands).result = runBranch n bodies' env operands := by
  unfold watchBranch runBranch
  simp only [result_bind, result_silent, bind_assoc]
  refine congrArg _ (funext fun value => congrArg _ (funext fun condition => ?_))
  have hfound := h.find? (if holds condition then "then_branch" else "else_branch")
  revert hfound
  generalize (bodies.find? _) = found
  generalize (bodies'.find? _) = found'
  rintro (⟨-, -, hmeaning⟩ | -)
  · exact hmeaning 0 unfed
  · rfl

private theorem watchNode_result (m : Machine V) (s : Stand) (g : Graph)
    (env : Environment (Marked V)) (n : Node) {bodies : List (WatchedBody V)}
    {bodies' : List (Body V)} (h : SameBodies (env.map unmark) bodies bodies') :
    (watchNode m s g env n bodies).result = runNode m n bodies' (env.map unmark) := by
  unfold watchNode runNode
  rw [result_bind, result_mapM fun name _ => watchName_result s g env name]
  refine congrArg _ (funext fun present => ?_)
  split
  · rw [result_bind, result_mapM (k := fun name =>
      if name = "" then pure (truth true) else lookup (env.map unmark) name)]
    · exact congrArg _ (funext fun operands => watchLoop_result m n h operands)
    · intro name _
      split
      · rfl
      · exact watchName_result s g env name
  · split
    · exact watchBranch_result n h present
    · rfl

/-- Watched places are run as the nodes there are, if that holds of their bodies. -/
private theorem watchPlaces_result (m : Machine V) (s : Stand) (g : Graph)
    (outer : Environment (Marked V))
    (hbodies : ∀ n ∈ g.nodes, ∀ body ∈ n.bodies, ∀ s outer feeds,
      (watch m body.2 s outer feeds).result = run m body.2 (outer.map unmark) feeds)
    (places : List Nat) (b : Bindings (Marked V)) :
    (watchPlaces m s g (g.nodes.map fun n => n.bodies.map fun body => watch m body.2) outer
      places b).result.map unmark = runNodes m (outer.map unmark) (g.nodesAt places) (unmark b) := by
  induction places generalizing b with
  | nil => rfl
  | cons place rest ih =>
      unfold watchPlaces runNodes Graph.nodesAt
      rw [List.filterMap_cons]
      cases hn : g.nodes[place]? with
      | none => exact ih b
      | some n =>
          have hbelow : (g.nodes.map fun n => n.bodies.map fun body => watch m body.2).getD place []
              = n.bodies.map fun body => watch m body.2 := by
            rw [List.getD_eq_getElem?_getD, List.getElem?_map, hn]
            rfl
          have hsame : SameBodies ((b :: outer).map unmark)
              (watchBodies s g (b :: outer) place n (n.bodies.map fun body => watch m body.2))
              (bodiesOf m n) := by
            unfold SameBodies watchBodies bodiesOf
            rw [List.zipWith_map_right, List.zipWith_self, List.forall₂_map_left_iff,
              List.forall₂_map_right_iff, List.forall₂_same]
            exact fun body hbody => ⟨rfl, rfl, fun round feeds =>
              hbodies n (List.mem_of_getElem? hn) body hbody _ _ feeds⟩
          have hnode := watchNode_result m s g (b :: outer) n hsame
          simp only [hbelow, List.foldlM_cons, result_bind, bind_assoc]
          rw [← List.map_cons, ← hnode]
          cases (watchNode m s g (b :: outer) n (watchBodies s g (b :: outer) place n
            (n.bodies.map fun body => watch m body.2))).result with
          | error e => rfl
          | ok values =>
              have hbound := bindOutputs_unmark n
                (fun value => (⟨value, .node g n, s.activation⟩ : Marked V)) (fun _ => rfl)
                n.outputs values b
              simp only [ok_bind, result_silent, ← hbound]
              cases bindOutputs n n.outputs
                (values.map fun value => (⟨value, .node g n, s.activation⟩ : Marked V)) b with
              | error e => rfl
              | ok c => exact ih c

/-- A watched run is a run. -/
theorem watch_result (m : Machine V) (g : Graph) (s : Stand) (outer : Environment (Marked V))
    (feeds : String → Option V) :
    (watch m g s outer feeds).result = run m g (outer.map unmark) feeds := by
  induction g using Graph.bodyInduction generalizing s outer feeds with
  | step g ih =>
    have hinputs := bindInputs_unmark g feeds
      (fun value => (⟨value, .input g, s.activation⟩ : Marked V)) (fun _ => rfl) g.inputs []
    rw [watch_eq, run_eq_runNodes]
    unfold watchWith
    rw [show ([] : Bindings V) = unmark [] from rfl, ← hinputs]
    simp only [result_bind, result_silent]
    cases bindInputs g (fun name => (feeds name).map fun value =>
        (⟨value, .input g, s.activation⟩ : Marked V)) g.inputs [] with
    | error e => rfl
    | ok inputs =>
        simp only [Except.map, ok_bind]
        refine congrArg _ (funext fun order => ?_)
        rw [← watchPlaces_result m s g outer ih]
        cases (watchPlaces m s g (g.nodes.map fun n => n.bodies.map fun body => watch m body.2)
          outer order inputs).result with
        | error e => rfl
        | ok b => exact result_mapM fun name _ => watchName_result s g (b :: outer) name

/-- A watched execution is an execution. -/
theorem watchExecution_result (m : Machine V) (g : Graph) (feeds : Bindings V) :
    (watchExecution m g feeds).result = execute m g feeds := by
  unfold watchExecution execute
  rw [result_bind, watch_result]
  rfl

end Erasure

end TensorGraph.Evaluation
