import TensorGraph.Proofs.Renaming

/-!
# A renaming changes nothing but a name

A value of some graph in a valid tree is renamed to a name that is used nowhere. Then the slots that
mean the value say the new name, all others say what they said, and every slot means what it meant.
The entry of the value moves to its new name, and the tree does what it did, if the value is an
input or an output of the root under its new name.

Two kinds of names are exceptions. An absent output means an input of the empty name, but the bodies
of a graph are not asked whether they mean it. And what is put under some names is not kept when
values are fed and yielded.

## Main results

* `Graph.renamed_putAt` -- where slots say another name, and what they mean.
* `Evaluation.renameValue_alpha` -- the renaming succeeds, and the tree does what it did.
-/

namespace TensorGraph

variable {old new : String}

namespace Graph

variable {visible : String → Prop} {g : Graph} {trail other : Trail} {scope scope' : Graph}

/-- What a name that is seen from the end of a trail becomes when the value `old` of the graph at
another one is renamed. -/
def respelled (g : Graph) (trail : Trail) (old new : String) (other : Trail) (name : String) :
    String :=
  if name = old ∧ (g.definition? other name).map Prod.fst = some trail then new else name

/-- What becomes of a tree when the value `old` of the graph `scope` at a trail is renamed, so that
`scope'` stands in its place. -/
structure Renamed (g : Graph) (trail : Trail) (old new : String) (scope scope' : Graph) : Prop where
  /-- Everything stands where it stood, and just the slots that mean the value say the new name. -/
  slots : ∀ other, Option.Rel (SpelledAs (g.respelled trail old new other))
    (g.bodyAt? other) ((g.putAt trail scope').bodyAt? other)
  /-- What a slot says means what it meant. -/
  definitions : ∀ other name, name ≠ new → (g.putAt trail scope').definition? other
    (g.respelled trail old new other name) = g.definition? other name
  /-- What was known of the value is known of its new name. -/
  known : ∀ name, scope'.infos.get? name =
    if name = new then (scope.infos.get? old).map fun info => { info with name := new }
    else if name = old then none else scope.infos.get? name
  /-- Of other graphs the same is known. -/
  tables : ∀ other, other ≠ trail →
    ((g.putAt trail scope').bodyAt? other).map infos = (g.bodyAt? other).map infos

/-! ## Slots -/

private theorem respelled_eq (hg : ScopedTree visible g) (hkeyed : KeyedTree g)
    (hat : g.bodyAt? trail = some scope) (hdef : scope.defines old = true) (name : String) :
    g.respelled trail old new other name =
      if trail <+: other then substituteName old new name else name := by
  unfold respelled
  rw [substituteName_eq]
  by_cases hname : name = old
  · simp only [hname, definition?_fst_eq_some_iff hg hkeyed hat hdef, true_and, if_true]
  · simp [hname]

theorem SpelledAs.congr {σ τ : String → String} {h : Graph} (hg : g.SpelledAs σ h)
    (hsame : ∀ name ∈ g.names, τ name = σ name) : g.SpelledAs τ h := by
  have hmap {names : List String} (hnames : names ⊆ g.names) : names.map σ = names.map τ :=
    List.map_congr_left fun name hname => (hsame name (hnames hname)).symm
  refine ⟨hg.name, ?_, ?_, ?_⟩
  · rw [hg.inputs, hmap fun _ => mem_names_of_mem_inputs]
  · rw [hg.outputs, hmap fun _ => mem_names_of_mem_outputs]
  · refine forall₂_imp_of_mem hg.nodes fun n hn k hk => ⟨hk.name, hk.op, hk.parameters, ?_, ?_⟩
    · rw [hk.inputs, hmap fun _ hname => mem_names_of_mem_node hn (.inr (.inl hname))]
    · rw [hk.outputs, hmap fun _ hname => mem_names_of_mem_node hn (.inr (.inr hname))]

/-- A graph whose bodies change stays what it is, bodies apart. -/
private theorem spelledAs_putAt (hkeyed : KeyedTree g) (step : Nat × String) (rest : Trail)
    (new : Graph) : g.SpelledAs (Equiv.refl String) (g.putAt (step :: rest) new) ∧
      (g.putAt (step :: rest) new).infos = g.infos := by
  have hsame (n : Node) : n.SpelledAs (Equiv.refl String) n := ⟨rfl, rfl, rfl, by simp, by simp⟩
  obtain ⟨place, key⟩ := step
  rw [putAt]
  split
  · exact ⟨⟨rfl, by simp, by simp, List.forall₂_same.2 fun n _ => hsame n⟩, rfl⟩
  · rename_i body hbody
    refine ⟨⟨?_, by simp, by simp, forall₂_putBody ((hasBody_iff hkeyed.here).2 hbody)
      (fun n _ => hsame n) fun n hn hmem =>
        ⟨rfl, rfl, Node.parameters_rebodied (hkeyed.here n hn) hmem _, by simp [Node.rebodied],
          by simp [Node.rebodied]⟩⟩, by simp⟩
    unfold putBody
    split <;> rfl

/-- Two names are swapped where the graph at a trail is around, and nowhere else. -/
private def swapAt (trail : Trail) (old new : String) (other : Trail) : Equiv.Perm String :=
  if trail <+: other then Equiv.swap old new else Equiv.refl String

private theorem rel_putAt (hkeyed : KeyedTree g) (hat : g.bodyAt? trail = some scope)
    (hspelled : scope.Spelled (Equiv.swap old new) scope') (other : Trail) :
    Option.Rel (fun inner inner' => inner.SpelledAs (swapAt trail old new other) inner' ∧
        (other ≠ trail → inner'.infos = inner.infos))
      (g.bodyAt? other) ((g.putAt trail scope').bodyAt? other) := by
  unfold swapAt
  by_cases hbelow : trail <+: other
  · obtain ⟨lower, rfl⟩ := hbelow
    have hbodies := hspelled.bodyAt? (keyedTree_bodyAt? hkeyed hat) lower
    rw [if_pos (List.prefix_append _ _), bodyAt?_putAt_append hat, bodyAt?_append, hat,
      Option.bind_some]
    revert hbodies
    generalize scope.bodyAt? lower = found
    generalize scope'.bodyAt? lower = found'
    rintro (@⟨inner, inner', hinfos, htree⟩ | -)
    · exact .some ⟨htree.here, fun hne => hinfos fun e => hne (by rw [e, List.append_nil])⟩
    · exact .none
  · rw [if_neg hbelow]
    by_cases habove : other <+: trail
    · obtain ⟨lower, rfl⟩ := habove
      obtain ⟨inner, hinner, -⟩ := Option.bind_eq_some_iff.1 ((bodyAt?_append g other lower) ▸ hat)
      rw [bodyAt?_putAt_above hat, hinner]
      cases lower with
      | nil => exact absurd (by simp) hbelow
      | cons step rest =>
          have hputs := spelledAs_putAt (keyedTree_bodyAt? hkeyed hinner) step rest scope'
          exact .some ⟨hputs.1, fun _ => hputs.2⟩
    · rw [bodyAt?_putAt_of_apart hbelow habove]
      cases g.bodyAt? other with
      | none => exact .none
      | some inner =>
          exact .some ⟨⟨rfl, by simp, by simp, List.forall₂_same.2 fun _ _ =>
            ⟨rfl, rfl, rfl, by simp, by simp⟩⟩, fun _ => rfl⟩

/-! ## Tables -/

private theorem get?_eq_none {t : InfoTable} {name : String} (h : name ∉ t.names) :
    t.get? name = none := by
  refine List.find?_eq_none.2 fun info hinfo heq => h ?_
  exact List.mem_map.2 ⟨info, hinfo, by simpa using heq⟩

/-- The entry of a renamed value moves to a name that has none. -/
private theorem get?_movedInfos_of_not_mem {t : InfoTable} (hne : old ≠ new) (hnew : new ∉ t.names)
    (name : String) : (movedInfos t old new).get? name =
      if name = new then (t.get? old).map fun info => { info with name := new }
      else if name = old then none else t.get? name := by
  have hnone := get?_eq_none hnew
  unfold movedInfos
  cases hold : t.get? old with
  | none =>
      dsimp only
      split
      · rename_i heq
        rw [heq, hnone, Option.map_none]
      · split
        · rename_i heq
          rw [heq, hold]
        · rfl
  | some info =>
      simp only [InfoTable.get?_erase, if_neg hne.symm, hnone, InfoTable.get?_set]
      rfl

/-! ## Renamings -/

private theorem findSome?_congr {α β : Type} {f f' : α → Option β} {l : List α}
    (h : ∀ a ∈ l, f a = f' a) : l.findSome? f = l.findSome? f' := by
  induction l with
  | nil => rfl
  | cons a l ih =>
      obtain ⟨ha, hl⟩ := List.forall_mem_cons.1 h
      rw [List.findSome?_cons, List.findSome?_cons, ha, ih hl]

private theorem slot?_eq_none {name : String} (h : g.defines name = false) :
    g.slot? name = none := by
  rw [← Option.not_isSome_iff_eq_none, isSome_slot?, h]
  exact Bool.false_ne_true

section Valid

variable (hg : ScopedTree visible g) (hkeyed : KeyedTree g) (hat : g.bodyAt? trail = some scope)
  (hdef : scope.defines old = true) (hfresh : new ∉ g.names)
include hg hkeyed hat hdef

/-- Other names than the new one are spelled as if two names were swapped. -/
private theorem respelled_eq_swapAt {name : String} (hname : name ≠ new) :
    g.respelled trail old new other name = swapAt trail old new other name := by
  rw [respelled_eq hg hkeyed hat hdef, swapAt]
  split
  · exact (swap_eq_substituteName hname).symm
  · rfl

include hfresh

/-- Seen from anywhere below, a graph defines the new spelling of a name where it defined the
name. -/
private theorem slot?_respelled (hold : old ≠ "") (hnew : new ≠ "") {upper : Trail}
    (hupper : upper <+: other) {inner inner' : Graph} (hinner : g.bodyAt? upper = some inner)
    (hslots : inner.SpelledAs (swapAt trail old new upper) inner') {name : String}
    (hname : name ≠ new) :
    inner'.slot? (g.respelled trail old new other name) = inner.slot? name := by
  have hempty : swapAt trail old new upper "" = "" := by
    unfold swapAt
    split
    · exact swap_eq_empty hold hnew
    · rfl
  have hslot := hslots.slot?_eq hempty
  by_cases hbelow : trail <+: upper
  · have hother : swapAt trail old new other = swapAt trail old new upper := by
      rw [swapAt, swapAt, if_pos hbelow, if_pos (hbelow.trans hupper)]
    rw [respelled_eq_swapAt hg hkeyed hat hdef hname, hother, hslot]
  · rw [swapAt, if_neg hbelow] at hslot
    rw [respelled_eq hg hkeyed hat hdef]
    split
    · rename_i hway
      rw [substituteName_eq]
      split
      · -- above the graph that defines the value neither of the two names is defined
        rename_i hsame
        have hold : inner.defines old = false := by
          rw [Bool.eq_false_iff]
          intro hinnerdef
          exact hbelow (eq_of_defines hg hkeyed hway hupper hat hinner hdef hinnerdef ▸
            List.prefix_refl _)
        have hnew : inner.defines new = false := by
          rw [Bool.eq_false_iff]
          exact fun hinnerdef =>
            hfresh (names_bodyAt? hkeyed hinner (mem_names_of_defines hinnerdef))
        rw [hsame, slot?_eq_none hold, ← slot?_eq_none hnew]
        exact hslot new
      · exact hslot name
    · exact hslot name

/-- What becomes of a valid tree when a value in it is renamed. -/
theorem renamed_putAt (hold : old ≠ "") (hnew : new ≠ "")
    (hspelled : scope.Spelled (Equiv.swap old new) scope')
    (hinfos : scope'.infos = movedInfos scope.infos old new) :
    g.Renamed trail old new scope scope' := by
  have hne : old ≠ new := fun e =>
    hfresh (names_bodyAt? hkeyed hat (mem_names_of_defines (e ▸ hdef)))
  refine ⟨fun other => ?_, fun other name hname => ?_, ?_, fun other hother => ?_⟩
  · have hrel := rel_putAt hkeyed hat hspelled other
    revert hrel
    generalize hinner : g.bodyAt? other = found
    generalize (g.putAt trail scope').bodyAt? other = found'
    rintro (@⟨inner, inner', hslots, -⟩ | -)
    · refine .some (hslots.congr fun name hname =>
        respelled_eq_swapAt hg hkeyed hat hdef fun e => ?_)
      exact hfresh (names_bodyAt? hkeyed hinner (e ▸ hname))
    · exact .none
  · refine findSome?_congr fun upper hupper => ?_
    have hupper := (List.mem_inits _ _).1 (List.mem_reverse.1 hupper)
    have hrel := rel_putAt hkeyed hat hspelled upper
    revert hrel
    generalize hinner : g.bodyAt? upper = found
    generalize (g.putAt trail scope').bodyAt? upper = found'
    rintro (@⟨inner, inner', hslots, -⟩ | -)
    · rw [Option.bind_some, Option.bind_some,
        slot?_respelled hg hkeyed hat hdef hfresh hold hnew hupper hinner hslots hname]
    · rfl
  · rw [hinfos]
    refine get?_movedInfos_of_not_mem hne fun hmem => hfresh (names_bodyAt? hkeyed hat ?_)
    rw [names_eq]
    simp [hmem]
  · have hrel := rel_putAt hkeyed hat hspelled other
    revert hrel
    generalize g.bodyAt? other = found
    generalize (g.putAt trail scope').bodyAt? other = found'
    rintro (@⟨inner, inner', -, htable⟩ | -)
    · exact congrArg some (htable hother)
    · rfl

end Valid

end Graph

/-! ## What the tree does -/

namespace Evaluation

open TensorGraph.Graph

variable {V : Type} [Operand V] {m : Machine V} {g scope : Graph} {trail : Trail}

private theorem toOption_execute (g : Graph) (feeds : Bindings V) :
    (execute m g feeds).toOption =
      (run m g [] fun name => (feeds.lookup name).or (Operand.unfed name)).toOption.map
        fun values => (g.outputs.zip values).filter fun output => Inherited.keeps output.1 := by
  unfold execute
  rw [toOption_bind]
  cases (run m g [] _).toOption <;> rfl

omit [Operand V] in
/-- Pairs of names and values keep their order and their values when names are spelled anew. -/
private theorem filter_zip_map {σ : String → String}
    (hkeeps : ∀ name, Inherited.keeps (σ name) = Inherited.keeps name) (names : List String)
    (values : List V) :
    (((names.map σ).zip values).filter fun output => Inherited.keeps output.1) =
      ((names.zip values).filter fun output => Inherited.keeps output.1).map
        fun output => (σ output.1, output.2) := by
  rw [List.zip_map_left, List.filter_map]
  simp only [Function.comp_def, Prod.map_fst, hkeeps]
  rfl

/-- Renaming a value of a graph in a valid tree to a name that is used nowhere succeeds. Exactly the
slots that mean the value say the new name, every slot means what it meant, and what was known of
the value is known of its new name. The tree does what it did, under the new name if the value is an
input or an output of the root, provided that values under the two names are fed and kept alike. -/
theorem renameValue_alpha (hm : m.Regular) (hvalid : g.IsValid) (hkeyed : KeyedTree g)
    (hat : g.bodyAt? trail = some scope) (hdef : scope.defines old = true) (hold : old ≠ "")
    (hnew : new ≠ "") (hfresh : new ∉ g.names) :
    ∃ scope', scope.renameValue old new = .ok scope' ∧ g.Renamed trail old new scope scope' ∧
      (Inherited.keeps old = Inherited.keeps new →
        (Operand.unfed old : Option V) = Operand.unfed new → ∀ feeds feeds' : Bindings V,
        (∀ name ∈ g.inputs, feeds'.lookup (g.respelled trail old new [] name) = feeds.lookup name) →
        (execute m (g.putAt trail scope') feeds').toOption = (execute m g feeds).toOption.map
          (List.map fun output => (g.respelled trail old new [] output.1, output.2))) := by
  obtain ⟨hscoped, hruled⟩ := isValid_iff.1 hvalid
  obtain ⟨_, hinner⟩ := everywhere_bodyAt? hscoped hkeyed hat
  obtain ⟨scope', hrenamed, hspelled, hinfos⟩ := spelled_renameValue hinner hdef hold fun hmem =>
    hfresh (names_bodyAt? hkeyed hat hmem)
  have hbecomes := renamed_putAt hscoped hkeyed hat hdef hfresh hold hnew hspelled hinfos
  refine ⟨scope', hrenamed, hbecomes, fun hkeeps hunfed feeds feeds' hfeeds => ?_⟩
  have hroot : g.SpelledAs (g.respelled trail old new []) (g.putAt trail scope') := by
    obtain ⟨hroot⟩ := hbecomes.slots []
    exact hroot
  have hkept (name : String) :
      Inherited.keeps (g.respelled trail old new [] name) = Inherited.keeps name := by
    unfold respelled
    split
    · rename_i hname
      rw [hname.1, hkeeps]
    · rfl
  have hinput {name : String} (hname : name ∈ g.inputs) :
      g.respelled trail old new [] name = Equiv.swap old new name := by
    have hneNew : name ≠ new := fun e => hfresh (e ▸ mem_names_of_mem_inputs hname)
    rw [respelled_eq_swapAt hscoped hkeyed hat hdef hneNew, swapAt]
    cases trail with
    | nil => rw [if_pos (List.prefix_refl _)]
    | cons step rest =>
        -- below the root a value has a name that no input of the root has
        have hneOld : name ≠ old := by
          rintro rfl
          have hundefined := not_defines_of_step hscoped hkeyed hat hdef
          simp [defines_iff.2 (.inl hname)] at hundefined
        rw [if_neg (by simp), Equiv.swap_apply_of_ne_of_ne hneOld hneNew]
        rfl
  have hrun := (unnoticed_putAt hm hkeeps hunfed hold hnew hscoped hkeyed hruled hat hspelled hdef
    hfresh).run [] [] (fun _ => rfl) rfl rfl
      (fun name => (feeds.lookup name).or (Operand.unfed name))
      (fun name => (feeds'.lookup name).or (Operand.unfed name)) fun name hname => by
        rw [← hinput hname, hfeeds name hname, hinput hname, apply_swap hunfed]
  rw [toOption_execute, toOption_execute, hrun, hroot.outputs, Option.map_map]
  exact Option.map_congr fun values _ => filter_zip_map hkept g.outputs values

/-- A graph with a value that both branches of a conditional yield. -/
def shared : Graph where
  inputs := ["condition", "x"]
  outputs := ["y"]
  infos := .ofList [{ name := "held", dtype := some .float32 }]
  nodes := [
    { name := "clip", op := "Relu", inputs := ["x"], outputs := ["held"] },
    { name := "choose", op := "If", inputs := ["condition"], outputs := ["y"]
      attributes := [("then_branch", .body { outputs := ["held"] }),
        ("else_branch", .body { outputs := ["held"] })] }]

theorem renameValue_alpha_shared :
    shared.IsValid ∧ KeyedTree shared ∧ shared.bodyAt? [] = some shared ∧
      shared.defines "held" = true ∧ "held" ≠ "" ∧ "kept" ≠ "" ∧ "kept" ∉ shared.names ∧
      ∃ h, shared.renameValue "held" "kept" = .ok h ∧
        (h.bodyAt? [(1, "then_branch")]).map Graph.outputs = some ["kept"] ∧
        h.definition? [(1, "then_branch")] "kept" =
          shared.definition? [(1, "then_branch")] "held" ∧
        (h.infos.get? "kept").bind ValueInfo.dtype = some .float32 ∧
        ∀ feeds : Bindings (Value Float), (execute (.standard 8) h feeds).toOption =
          (execute (.standard 8) shared feeds).toOption.map
            (List.map fun output => (shared.respelled [] "held" "kept" [] output.1, output.2)) := by
  have hvalid : shared.IsValid := by
    unfold IsValid
    decide +kernel
  have hkeyed : KeyedTree shared := by decide +kernel
  have hat : shared.bodyAt? [] = some shared := rfl
  have hdef : shared.defines "held" = true := by decide +kernel
  have hfresh : "kept" ∉ shared.names := by decide +kernel
  have hunfed : (Operand.unfed "held" : Option (Value Float)) = Operand.unfed "kept" := by
    rw [(Value.unfed_eq_none_iff "held").2 (by decide),
      (Value.unfed_eq_none_iff "kept").2 (by decide)]
  have hinputs : ∀ name ∈ shared.inputs, shared.respelled [] "held" "kept" [] name = name := by
    decide +kernel
  have hspelled : shared.respelled [] "held" "kept" [(1, "then_branch")] "held" = "kept" := by
    decide +kernel
  obtain ⟨h, hrenamed, hbecomes, hrun⟩ := renameValue_alpha
    (Machine.standard_regular 8 : (Machine.standard 8 : Machine (Value Float)).Regular) hvalid
    hkeyed hat hdef (by decide) (by decide) hfresh
  refine ⟨hvalid, hkeyed, hat, hdef, by decide, by decide, hfresh, h, hrenamed, ?_, ?_, ?_,
    fun feeds => hrun rfl hunfed feeds feeds fun name hname => by rw [hinputs name hname]⟩
  · have hslots : Option.Rel (SpelledAs (shared.respelled [] "held" "kept" [(1, "then_branch")]))
        (some { outputs := ["held"] }) (h.bodyAt? [(1, "then_branch")]) := hbecomes.slots _
    generalize h.bodyAt? [(1, "then_branch")] = found at hslots ⊢
    obtain ⟨hbody⟩ := hslots
    simp [hbody.outputs, hspelled]
  · rw [← hbecomes.definitions _ _ (by decide), hspelled]
    rfl
  · rw [hbecomes.known]
    rfl

/-- A graph with an input of the empty name that a branch yields. -/
def unnamed : Graph where
  inputs := ["", "condition"]
  outputs := ["y"]
  nodes := [
    { name := "choose", op := "If", inputs := ["condition"], outputs := ["y"]
      attributes := [("then_branch", .body { outputs := [""] }),
        ("else_branch", .body { outputs := [""] })] }]

/-- A renaming leaves the output slots of bodies alone that mean an input of the empty name. -/
theorem not_renameValue_alpha_unnamed :
    unnamed.IsValid ∧ unnamed.defines "" = true ∧ "named" ∉ unnamed.names ∧
      unnamed.definition? [(0, "then_branch")] "" = some ([], .input 0) ∧
      ∃ h, unnamed.renameValue "" "named" = .ok h ∧ h.inputs = ["named", "condition"] ∧
        (h.bodyAt? [(0, "then_branch")]).map Graph.outputs = some [""] ∧
        h.definition? [(0, "then_branch")] "" = none ∧ ¬ h.IsValid := by
  refine ⟨?_, by decide +kernel, by decide +kernel, by decide +kernel, _, rfl, by decide +kernel,
    by decide +kernel, by decide +kernel, ?_⟩
  · unfold IsValid
    decide +kernel
  · unfold IsValid
    decide +kernel

end Evaluation

end TensorGraph
