import TensorGraph.Proofs.Blaming

/-!
# What the reader refuses

A graph is read from a value exactly if the value is of the form and no count of entries overflows.
Otherwise the reader names a place where the form is violated or a count overflows.

## Main results

* `judged_graph` -- graphs are judged, with all that is below them.
* `Graph.ofJson_conforms` -- what is read, and where a failure leads to.
* `Graph.not_ofJson_of_isGraphForm` -- a value of the form that is refused.
-/

namespace TensorGraph

open Json TensorGraph.Part

/-! ## Graphs, nodes and attributes -/

section

variable {base : Path} {members : List (String × Json)}

theorem settles_infosOfJson :
    Settles (fun _ => ∀ inner, members.lookup "valueInfo" = some inner → (list info).Sound (some inner))
      (fun e => (members.lookup "valueInfo").isSome ∧
        (list info).Blamed (base ++ [.key "valueInfo"]) (members.lookup "valueInfo") e)
      (Graph.infosOfJson base members) := by
  unfold Graph.infosOfJson
  split
  · rename_i hnone
    intro inner hinner
    rw [hnone] at hinner
    cases hinner
  · rename_i inner hinner
    rw [hinner]
    refine judged_infos.mono ?_ fun e he => ⟨rfl, he⟩
    rintro infos hsound _ ⟨⟩
    exact hsound

theorem judged_nodesOfJson
    (h : ∀ items, members.lookup "nodes" = some (.arr items) → ∀ item ∈ items, ∀ place,
      node.Judged place (some item) (Node.ofJson place item)) :
    (list node).Judged (base ++ [.key "nodes"]) (members.lookup "nodes")
      (Graph.nodesOfJson base members) := by
  have hlist : ∀ (path : Path) (start : Nat) (items : List Json),
      Node.listOfJson path start items = eachItem Node.ofJson path start items := by
    intro path start items
    induction items generalizing start with
    | nil => rw [Node.listOfJson, eachItem]
    | cons item rest ih => rw [Node.listOfJson, eachItem, ih]
  unfold Graph.nodesOfJson
  split
  · rename_i items hitems
    have heach := settles_eachItem (base ++ [.key "nodes"]) (h items hitems)
      (fun i hi => .item hi) [] items rfl
    rw [hlist, hitems]
    exact heach.mono (fun nodes hnodes => sound_list (forall_of_forall₂ hnodes)) fun _ => id
  · rename_i hnot
    refine blamed_here id ?_
    rintro ⟨items, hitems⟩
    exact hnot items hitems

/-- Attributes are read one after the other, also those that are left out. -/
theorem settles_attributes {all rest : List (String × Json)} (hkeys : (all.map Prod.fst).Nodup)
    (hrest : rest ⊆ all)
    (h : ∀ entry ∈ all, ∀ place,
      Part.attribute.Judged place (some entry.2) (Attribute.ofJson place entry.2)) :
    Settles (fun _ => ∀ entry ∈ rest, Part.attribute.Sound (some entry.2))
      (attributes.Blamed base (some (.obj all))) (Attributes.ofJson base rest) := by
  induction rest with
  | nil =>
      rw [Attributes.ofJson]
      exact fun _ hentry => nomatch hentry
  | cons entry rest ih =>
      obtain ⟨key, inner⟩ := entry
      obtain ⟨hmem, hrest⟩ := List.cons_subset.1 hrest
      have hlookup : all.lookup key = some inner := lookup_of_mem hkeys hmem
      have hstep : (Json.obj all).step? (.key key) = some inner := hlookup
      rw [Attributes.ofJson]
      refine Settles.bind ((h _ hmem _).mono (fun _ => id) fun e he => ?_) fun first hfirst =>
        Settles.bind (ih hrest) fun others hothers => List.forall_mem_cons.2 ⟨hfirst, hothers⟩
      rw [← hstep] at he
      exact he.below (.entry (by simp [hlookup]))

theorem settles_attributesOfJson (hj : (Json.obj members).IsProper)
    (h : ∀ entries, members.lookup "attributes" = some (.obj entries) → ∀ entry ∈ entries, ∀ place,
      Part.attribute.Judged place (some entry.2) (Attribute.ofJson place entry.2)) :
    Settles (fun _ => ∀ inner, members.lookup "attributes" = some inner → attributes.Sound (some inner))
      (fun e => (members.lookup "attributes").isSome ∧
        attributes.Blamed (base ++ [.key "attributes"]) (members.lookup "attributes") e)
      (Node.attributesOfJson base members) := by
  unfold Node.attributesOfJson
  split
  · rename_i hnone
    intro inner hinner
    rw [hnone] at hinner
    cases hinner
  · rename_i entries hentries
    rw [hentries]
    refine (settles_attributes (hj.lookup hentries).keys (List.Subset.refl _) (h entries hentries)).mono ?_
      fun e he => ⟨rfl, he⟩
    rintro _ hsound _ ⟨⟩
    exact everywhere_attributes.2 ⟨⟨⟨entries, rfl⟩, not_uncounted (by simp)⟩,
      fun key inner hinner => hsound _ (mem_of_lookup hinner)⟩
  · rename_i inner hnot hinner
    rw [hinner]
    refine ⟨rfl, blamed_here id ?_⟩
    rintro ⟨entries, ⟨⟩⟩
    exact hnot entries rfl

end

mutual

theorem judged_graph :
    (j : Json) → j.IsProper → ∀ base, graph.Judged base (some j) (Graph.ofJsonAt base j)
  | .obj members, hj, base => by
      have hnodes : ∀ items, members.lookup "nodes" = some (.arr items) → ∀ item ∈ items, ∀ place,
          node.Judged place (some item) (Node.ofJson place item) := fun items hfound item hitem place => by
        have := sizeOf_lookup hfound
        have := List.sizeOf_lt_of_mem hitem
        exact judged_node item ((hj.lookup hfound).item item hitem) place
      rw [Graph.ofJsonAt_obj]
      refine Settles.bind (Settles.optional settles_infosOfJson (by simp [Part.members])) fun _ hinfos => ?_
      refine Settles.bind (Settles.required judged_expectString (by simp [Part.members])) fun _ hname => ?_
      refine Settles.bind (Settles.required judged_infos (by simp [Part.members])) fun _ hinputs => ?_
      refine Settles.bind (Settles.required judged_infos (by simp [Part.members])) fun _ houtputs => ?_
      refine Settles.bind (Settles.required (judged_nodesOfJson hnodes) (by simp [Part.members]))
        fun _ hnodes => ?_
      exact everywhere_graph.2
        ⟨⟨⟨members, rfl⟩, not_uncounted (by simp)⟩, hname, hinputs, houtputs, hinfos, hnodes⟩
  | .null, _, base | .bool _, _, base | .num _, _, base | .str _, _, base | .arr _, _, base => by
      simp only [Graph.ofJsonAt]
      exact blamed_here id fun ⟨_, h⟩ => nomatch h
termination_by j => sizeOf j
decreasing_by
  simp only [Json.obj.sizeOf_spec, Json.arr.sizeOf_spec] at *
  omega

theorem judged_node : (j : Json) → j.IsProper → ∀ base, node.Judged base (some j) (Node.ofJson base j)
  | .obj members, hj, base => by
      have hattributes : ∀ entries, members.lookup "attributes" = some (.obj entries) →
          ∀ entry ∈ entries, ∀ place,
            Part.attribute.Judged place (some entry.2) (Attribute.ofJson place entry.2) :=
        fun entries hfound entry hentry place => by
          have := sizeOf_lookup hfound
          have := List.sizeOf_lt_of_mem hentry
          exact judged_attribute entry.2
            ((hj.lookup hfound).lookup (lookup_of_mem (hj.lookup hfound).keys hentry)) place
      rw [Node.ofJson_obj]
      refine Settles.bind (Settles.optional (settles_attributesOfJson hj hattributes)
        (by simp [Part.members])) fun _ hattributes => ?_
      refine Settles.bind (Settles.required judged_expectString (by simp [Part.members])) fun _ hname => ?_
      refine Settles.bind (Settles.required judged_expectString (by simp [Part.members])) fun _ hop => ?_
      refine Settles.bind (Settles.required judged_expectStrings (by simp [Part.members]))
        fun _ hinputs => ?_
      refine Settles.bind (Settles.required judged_expectStrings (by simp [Part.members]))
        fun _ houtputs => ?_
      exact everywhere_node.2
        ⟨⟨⟨members, rfl⟩, not_uncounted (by simp)⟩, hname, hop, hinputs, houtputs, hattributes⟩
  | .null, _, base | .bool _, _, base | .num _, _, base | .str _, _, base | .arr _, _, base => by
      simp only [Node.ofJson]
      exact blamed_here id fun ⟨_, h⟩ => nomatch h
termination_by j => sizeOf j
decreasing_by
  have : sizeOf entry = sizeOf entry.1 + sizeOf entry.2 + 1 := by cases entry; simp; omega
  simp only [Json.obj.sizeOf_spec] at *
  omega

theorem judged_attribute :
    (j : Json) → j.IsProper → ∀ base, Part.attribute.Judged base (some j) (Attribute.ofJson base j)
  | .obj members, hj, base => by
      rw [Attribute.ofJson]
      split
      · rename_i hsome
        refine Settles.map ((judged_literal fun inner hinner => hj.lookup hinner).mono (fun _ => id)
          fun e he => Blamed.below he (.literal hsome)) fun _ hliteral => ?_
        refine everywhere_attribute_obj.2 ⟨⟨⟨_, rfl, .inl hsome⟩, not_uncounted (by simp)⟩,
          fun inner hinner => hinner ▸ hliteral, fun hnone => ?_⟩
        simp [hnone] at hsome
      · rename_i hnot
        have hnone : members.lookup "tensor" = none := Option.not_isSome_iff_eq_none.1 hnot
        split
        · rename_i inner hinner
          have := sizeOf_lookup hinner
          have hstep : (Json.obj members).step? (.key "graph") = some inner := hinner
          have hsome : (members.lookup "graph").isSome := by simp [hinner]
          refine Settles.map ((judged_graph inner (hj.lookup hinner) _).mono (fun _ => id) fun e he => ?_)
            fun _ hbody => ?_
          · rw [← hstep] at he
            exact he.below (.body hnone hsome)
          · refine everywhere_attribute_obj.2 ⟨⟨⟨_, rfl, .inr hsome⟩, not_uncounted (by simp)⟩,
              fun found hfound => ?_, fun _ found hfound => ?_⟩
            · simp [hnone] at hfound
            · obtain rfl := Option.some.inj (hinner.symm.trans hfound)
              exact hbody
        · rename_i hnograph
          refine blamed_here id ?_
          rintro ⟨_, ⟨⟩, hkind⟩
          simp [IsAttributeKind, hnone, hnograph] at hkind
  | .arr items, _, base => by
      rw [Attribute.ofJson]
      have heach := settles_eachItem base
        (fun item (_ : item ∈ items) place =>
          (judged_expectNumber : Part.number.Judged place (some item) _))
        (fun i hi => Leads.numbers hi) [] items rfl
      refine Settles.map heach fun xs hread => ?_
      exact everywhere_attribute_arr.2
        ⟨⟨⟨_, rfl, trivial⟩, not_uncounted (by simp)⟩, forall_of_forall₂ hread⟩
  | .num x, _, base => by
      rw [Attribute.ofJson]
      refine Settles.map (settles_expectNumber.mono (fun _ => id) fun e he => ?_) fun x hx => ?_
      · obtain ⟨rfl, hmet⟩ := he
        exact blamed_here (fun ⟨inner, h, hkind⟩ => ⟨inner, h, Option.some.inj h ▸ hkind⟩) hmet
      · rw [Sound, everywhere_attribute_plain (by simp) (by simp)]
        exact ⟨⟨_, rfl, x, Option.some.inj hx.1, hx.2⟩, not_uncounted (by simp)⟩
  | .str s, _, base => by
      rw [Attribute.ofJson, Judged, Settles, Sound, everywhere_attribute_plain (by simp) (by simp)]
      exact ⟨⟨_, rfl, trivial⟩, not_uncounted (by simp)⟩
  | .null, _, base | .bool _, _, base => by
      simp only [Attribute.ofJson]
      refine blamed_here ?_ fun ⟨_, h⟩ => nomatch h
      rintro ⟨_, ⟨⟩, _, ⟨⟩, -⟩
termination_by j => sizeOf j
decreasing_by
  simp only [Json.obj.sizeOf_spec]
  omega

end

/-! ## What is read and what is refused -/

/-- A graph is read from the values of the form in which no count of entries overflows. From all
others none is, and the failure names a place where the form is violated, or where a count
overflows. -/
theorem Graph.ofJson_conforms {j : Json} (hj : j.IsProper) :
    ((∃ g, Graph.ofJson (some j) = .ok g) ↔ IsGraphForm j ∧ ∀ path, ¬ Overflows j path) ∧
      (∀ e, Graph.ofJson (some j) = .error e →
        ∃ path want, e = .format path want ∧ (Violates j path want ∨ Overflows j path)) ∧
      ∀ path want, Violates j path want → ¬ IsGraphForm j := by
  have hjudged : Part.graph.Judged [] (some j) (Graph.ofJson (some j)) := judged_graph j hj []
  have hsound : Part.graph.Sound (some j) ↔ IsGraphForm j ∧ ∀ path, ¬ Overflows j path := by
    rw [Part.sound_iff, Part.holds_graph j hj]
    refine and_congr_right fun _ => ⟨?_, ?_⟩
    · rintro h path ⟨part, hreaches, huncounted⟩
      exact h path part hreaches huncounted
    · exact fun h path last hreaches huncounted => h path ⟨last, hreaches, huncounted⟩
  refine ⟨⟨?_, fun hform => ?_⟩, fun e he => ?_, fun path want hviolates => hviolates.not_isGraphForm hj⟩
  · rintro ⟨g, hg⟩
    rw [hg] at hjudged
    exact hsound.1 hjudged
  · cases hread : Graph.ofJson (some j) with
    | ok g => exact ⟨g, rfl⟩
    | error e =>
        rw [hread] at hjudged
        exact absurd hjudged (hsound.2 hform).not_blamed
  · rw [he] at hjudged
    obtain ⟨path, want, rfl, last, hreaches, ⟨hfits, hmet⟩ | huncounted⟩ := hjudged
    · exact ⟨path, want, rfl, .inl ⟨last, hreaches, hfits, hmet⟩⟩
    · exact ⟨path, want, rfl, .inr ⟨last, hreaches, huncounted⟩⟩

/-! ## Nested values -/

namespace Json

/-- A graph with one node, which has one attribute. -/
def constantForm (value : Json) : Json :=
  .obj [("name", .str "g"), ("inputs", .arr []), ("outputs", .arr []), ("nodes", .arr [
    .obj [("name", .str "n"), ("op", .str "Constant"), ("inputs", .arr []), ("outputs", .arr []),
      ("attributes", .obj [("value", value)])]])]

theorem isProper_arr {items : List Json} :
    (arr items).IsProper ↔ items.length < exactRange ∧ ∀ item ∈ items, item.IsProper :=
  ⟨fun h => ⟨h.length, h.item⟩, fun h => .arr h.1 h.2⟩

theorem isProper_obj {members : List (String × Json)} :
    (obj members).IsProper ↔ (members.map Prod.fst).Nodup ∧ ∀ entry ∈ members, entry.2.IsProper :=
  ⟨fun h => ⟨h.keys, by cases h; assumption⟩, fun h => .obj h.1 h.2⟩

theorem isProper_constantForm {value : Json} : (constantForm value).IsProper ↔ value.IsProper := by
  simp [constantForm, isProper_obj, isProper_arr, IsProper.str, exactRange]

theorem isGraphForm_constantForm {value : Json} (h : IsAttributeForm value) :
    IsGraphForm (constantForm value) := by
  have hempty : ∀ form, IsListForm form (some (.arr [])) := fun _ => ⟨[], rfl, by simp⟩
  refine .intro ⟨"g", rfl⟩ (hempty _) (hempty _) (by simp [IsOptionalForm, List.lookup_cons]) rfl ?_
  simp only [List.mem_singleton, forall_eq]
  exact .withAttributes ⟨"n", rfl⟩ ⟨"Constant", rfl⟩ (hempty _) (hempty _) rfl (by simpa using h)

end Json

/-- A graph whose node has an attribute is read if the attribute is read. -/
theorem Graph.ofJsonAt_constantForm (path : Path) (value : Json) :
    Graph.ofJsonAt path (constantForm value) =
      (Attribute.ofJson (path ++ [.key "nodes", .index 0, .key "attributes", .key "value"]) value).map
        fun read => Graph.assemble "g" [] [] []
          [{ name := "n", op := "Constant", inputs := [], outputs := [],
             attributes := [("value", read)] }] := by
  have hkeeps : Inherited.keeps "value" = true := by decide
  unfold constantForm
  rw [Graph.ofJsonAt_obj]
  simp [Graph.infosOfJson, Graph.nodesOfJson, ValueInfo.listOfJson, expectItems, expectArray, eachItem,
    Node.listOfJson, Node.ofJson_obj, Node.attributesOfJson, Attributes.ofJson, expectStrings,
    expectString, List.lookup_cons, hkeeps]
  cases Attribute.ofJson (path ++ [.key "nodes", .index 0, .key "attributes", .key "value"]) value with
  | error e => rfl
  | ok read => rfl

/-- A graph whose node owns a graph that has a literal tensor. -/
def Json.nestedForm : Json :=
  constantForm (.obj [("graph", constantForm (.obj [("tensor", Literal.wide.toJson)]))])

theorem Graph.ofJson_conforms_nested :
    nestedForm.IsProper ∧ (∃ g, Graph.ofJson (some nestedForm) = .ok g) ∧ IsGraphForm nestedForm := by
  have hproper : nestedForm.IsProper := by
    simp [nestedForm, isProper_constantForm, isProper_obj, isProper_arr, Literal.toJson, Literal.wide,
      DType.toMember, DType.name?, IsProper.str, IsProper.num, exactRange]
  have hwide : Literal.wide.Legible :=
    ⟨by decide, by simpa [Literal.wide] using ⟨Number.size_ofNat 2, Number.size_ofNat 3⟩, by decide,
      by decide +kernel⟩
  have hread : ∃ g, Graph.ofJson (some nestedForm) = .ok g := by
    rw [Graph.ofJson, nestedForm, ofJsonAt_constantForm, Attribute.ofJson_graph, ofJsonAt_constantForm,
      Attribute.ofJson_tensor, Literal.ofJson_toJson hwide]
    exact ⟨_, rfl⟩
  exact ⟨hproper, hread, ((Graph.ofJson_conforms hproper).1.1 hread).1⟩

/-- The form of a literal tensor whose entries are not counted is refused. -/
theorem Literal.ofJson_uncounted {value : Literal} (hdtype : value.dtype ∈ DType.all)
    (hdims : ∀ d ∈ value.dims, d.Size) (hdata : value.data = [])
    (h : Shape.measured value.sizes = .nan) (path : Path) :
    Literal.ofJson path (some value.toJson) =
      .error (.format (path ++ [.key "data"]) (.entries .nan 0)) := by
  have hsizes : expectSizes (path ++ [.key "dims"]) (some (.arr (value.dims.map .num))) =
      .ok (value.dims, value.sizes) := by
    rw [expectSizes, expectNumbers_num fun d hd => (hdims d hd).finite, Evaluation.ok_bind,
      sizesOfNumbers_natural hdims]
    rfl
  have hne : Number.nan ≠ .ofInt 0 := Number.noConfusion
  have hnumbers : expectNumbers (path ++ [.key "data"]) (some (.arr [])) = .ok [] := rfl
  unfold Literal.ofJson Literal.toJson
  rw [DType.toMember_of_mem hdtype, hdata]
  simp [expectObject, List.lookup_cons, hsizes, expectDType_text hdtype, hnumbers, h, hne]

/-- A literal tensor without entries, with two sizes before one that is zero. -/
def Literal.overflowing (n : Nat) : Literal :=
  { dtype := .float32, dims := [.ofNat n, .ofNat n, .ofNat 0], data := [] }

/-- Where the two sizes multiply to more than a double can hold, the form is refused. -/
theorem Graph.not_ofJson_of_isGraphForm :
    ∃ j, j = constantForm (.obj [("tensor", (Literal.overflowing (2 ^ 600)).toJson)]) ∧
      j.IsProper ∧ IsGraphForm j ∧
      Graph.ofJson (some j) = .error (.format [.key "nodes", .index 0, .key "attributes", .key "value",
        .key "tensor", .key "data"] (.entries .nan 0)) := by
  have hcount : Shape.measured (Literal.overflowing (2 ^ 600)).sizes = .nan := by decide +kernel
  generalize 2 ^ 600 = n at hcount
  refine ⟨_, rfl, ?_, isGraphForm_constantForm (.literal rfl ?_), ?_⟩
  · simp [isProper_constantForm, isProper_obj, isProper_arr, Literal.toJson, Literal.overflowing,
      DType.toMember, DType.name?, IsProper.str, IsProper.num, exactRange]
  · exact ⟨_, .str "float32", _, [n, n, 0], [], rfl, rfl, ⟨.float32, by decide, rfl⟩, rfl,
      ⟨⟨_, rfl, rfl, rfl⟩, ⟨_, rfl, rfl, rfl⟩, ⟨_, rfl, rfl, rfl⟩, trivial⟩, rfl, by simp,
      by simp, by simp [exactRange]⟩
  · have hlisted : DType.float32 ∈ DType.all := by decide
    have hsizes : ∀ d ∈ (Literal.overflowing n).dims, d.Size := by
      simp [Literal.overflowing, Number.size_ofNat]
    rw [Graph.ofJson, ofJsonAt_constantForm, Attribute.ofJson_tensor,
      Literal.ofJson_uncounted hlisted hsizes rfl hcount]
    rfl

end TensorGraph
