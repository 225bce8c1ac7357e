import TensorGraph.Json.Reader
import TensorGraph.Proofs.Naming

/-!
# Values whose keys differ

No key occurs twice in an object. The members of one are a list of entries here, so this is said of them
apart: values stand in the list themselves, and their type cannot ask anything of a list in which it
occurs. What is read from a text keeps to it, for a member with a key that was there before takes the
place of the earlier one.

## Main results

* `Json.keyed_ofMembers` -- the members of an object have different keys, in whichever order they were
  written.
* `Json.keyed_read?` -- what is read from a text has different keys in each object.
-/

namespace TensorGraph.Json

/-- Whether the keys of each object in a value differ. -/
inductive Keyed : Json → Prop where
  | null : Keyed .null
  | bool (b : Bool) : Keyed (.bool b)
  | num (x : Number) : Keyed (.num x)
  | str (s : String) : Keyed (.str s)
  | arr {items : List Json} : (∀ item ∈ items, Keyed item) → Keyed (.arr items)
  | obj {members : List (String × Json)} : (members.map Prod.fst).Nodup →
      (∀ entry ∈ members, Keyed entry.2) → Keyed (.obj members)

namespace Keyed

theorem item {items : List Json} (h : (Json.arr items).Keyed) : ∀ item ∈ items, item.Keyed := by
  cases h
  assumption

theorem member {members : List (String × Json)} (h : (Json.obj members).Keyed) :
    ∀ entry ∈ members, entry.2.Keyed := by
  cases h
  assumption

theorem keys {members : List (String × Json)} (h : (Json.obj members).Keyed) :
    (members.map Prod.fst).Nodup := by
  cases h
  assumption

theorem lookup {members : List (String × Json)} (h : (Json.obj members).Keyed) {key : String}
    {j : Json} (hj : members.lookup key = some j) : j.Keyed :=
  h.member _ (mem_of_lookup hj)

end Keyed

/-! ## Members -/

section Members

variable {α : Type} {members : List (String × Json)} {key : String} {value : Json}

/-- A member takes the place of one with its key, or comes behind the others. -/
theorem keys_putMember (h : (members.map Prod.fst).Nodup) :
    ((putMember members key value).map Prod.fst).Nodup := by
  unfold putMember
  split
  · have hkeys : (members.map fun entry => if entry.1 == key then (entry.1, value) else entry).map
        Prod.fst = members.map Prod.fst := by
      rw [List.map_map]
      refine List.map_congr_left fun entry _ => ?_
      dsimp only [Function.comp_apply]
      split <;> rfl
    exact hkeys.symm ▸ h
  · rename_i hnew
    rw [List.map_append, List.map_singleton, ← List.concat_eq_append]
    refine List.Nodup.concat (fun hmem => hnew ?_) h
    obtain ⟨entry, hentry, hkey⟩ := List.mem_map.1 hmem
    exact List.any_eq_true.2 ⟨entry, hentry, beq_iff_eq.2 hkey⟩

theorem mem_putMember {entry : String × Json} (h : entry ∈ putMember members key value) :
    entry.2 = value ∨ entry ∈ members := by
  unfold putMember at h
  split at h
  · obtain ⟨⟨k, v⟩, hold, rfl⟩ := List.mem_map.1 h
    dsimp only
    split
    · exact .inl rfl
    · exact .inr hold
  · rcases List.mem_append.1 h with hmem | hmem
    · exact .inr hmem
    · exact .inl (congrArg Prod.snd (List.mem_singleton.1 hmem))

/-- Putting members into an order leaves their keys and values. -/
theorem orderMembers_perm (members : List (String × α)) : (orderMembers members).Perm members := by
  have hindexed : (members.filterMap fun entry => (indexKey? entry.1).map fun i => (i, entry)).map
      Prod.snd = members.filter fun entry => (indexKey? entry.1).isSome := by
    induction members with
    | nil => rfl
    | cons entry rest ih =>
        cases hindex : indexKey? entry.1 with
        | none => simpa [hindex] using ih
        | some i => simpa [hindex] using ih
  have hnamed : (members.filter fun entry => (indexKey? entry.1).isNone) =
      members.filter fun entry => !(indexKey? entry.1).isSome :=
    List.filter_congr fun entry _ => by cases indexKey? entry.1 <;> rfl
  have hsorted := (List.mergeSort_perm (members.filterMap fun entry =>
    (indexKey? entry.1).map fun i => (i, entry)) fun a b => a.1 ≤ b.1).map Prod.snd
  rw [hindexed] at hsorted
  exact (hsorted.append_right _).trans (hnamed ▸ List.filter_append_perm _ members)

/-- The members of an object have different keys, in whichever order they were written. -/
theorem keyed_ofMembers {written : List (String × Json)} (h : ∀ entry ∈ written, entry.2.Keyed) :
    (ofMembers written).Keyed := by
  have hput : ∀ (rest before : List (String × Json)), (∀ entry ∈ rest, entry.2.Keyed) →
      (before.map Prod.fst).Nodup → (∀ entry ∈ before, entry.2.Keyed) →
      ((rest.foldl (fun members entry => putMember members entry.1 entry.2) before).map Prod.fst).Nodup ∧
        ∀ entry ∈ rest.foldl (fun members entry => putMember members entry.1 entry.2) before,
          entry.2.Keyed := by
    intro rest
    induction rest with
    | nil => exact fun _ _ hkeys hvalues => ⟨hkeys, hvalues⟩
    | cons entry rest ih =>
        intro before hall hkeys hvalues
        rw [List.forall_mem_cons] at hall
        refine ih _ hall.2 (keys_putMember hkeys) fun other hother => ?_
        rcases mem_putMember hother with hvalue | hmem
        · exact hvalue ▸ hall.1
        · exact hvalues other hmem
  obtain ⟨hkeys, hvalues⟩ := hput written [] h List.nodup_nil (List.forall_mem_nil _)
  refine .obj ?_ fun entry hentry => hvalues entry ((orderMembers_perm _).mem_iff.1 hentry)
  exact ((orderMembers_perm _).map Prod.fst).nodup_iff.2 hkeys

end Members

/-! ## Texts -/

mutual

private theorem keyed_readValue? : {fuel : Nat} → {cs rest : List Char} → {j : Json} →
    readValue? fuel cs = some (j, rest) → j.Keyed
  | 0, _, _, _, h => by cases h
  | fuel + 1, cs, rest, j, h => by
      rw [readValue?] at h
      split at h
      · cases h
      · split at h
        · cases h
          exact keyed_ofMembers (List.forall_mem_nil _)
        · obtain ⟨⟨members, after⟩, hmembers, heq⟩ := Option.map_eq_some_iff.1 h
          cases heq
          refine keyed_ofMembers fun entry hentry => ?_
          exact keyed_readMembers? (List.forall_mem_nil _) hmembers entry (List.mem_reverse.1 hentry)
      · split at h
        · cases h
          exact .arr (List.forall_mem_nil _)
        · obtain ⟨⟨items, after⟩, hitems, heq⟩ := Option.map_eq_some_iff.1 h
          cases heq
          refine .arr fun item hitem => ?_
          exact keyed_readItems? (List.forall_mem_nil _) hitems item (List.mem_reverse.1 hitem)
      · obtain ⟨_, -, heq⟩ := Option.map_eq_some_iff.1 h
        cases heq
        exact .str _
      · obtain ⟨_, -, heq⟩ := Option.map_eq_some_iff.1 h
        cases heq
        exact .bool _
      · obtain ⟨_, -, heq⟩ := Option.map_eq_some_iff.1 h
        cases heq
        exact .bool _
      · obtain ⟨_, -, heq⟩ := Option.map_eq_some_iff.1 h
        cases heq
        exact .null
      · obtain ⟨_, -, heq⟩ := Option.map_eq_some_iff.1 h
        cases heq
        exact .num _

private theorem keyed_readItems? : {fuel : Nat} → {before items : List Json} → {cs rest : List Char} →
    (∀ item ∈ before, item.Keyed) → readItems? fuel before cs = some (items, rest) →
    ∀ item ∈ items, item.Keyed
  | 0, _, _, _, _, _, h => by cases h
  | fuel + 1, before, items, cs, rest, hbefore, h => by
      rw [readItems?] at h
      split at h
      · cases h
      · rename_i item more hitem
        have hbefore : ∀ other ∈ item :: before, other.Keyed :=
          List.forall_mem_cons.2 ⟨keyed_readValue? hitem, hbefore⟩
        split at h
        · exact keyed_readItems? hbefore h
        · cases h
          exact hbefore
        · cases h

private theorem keyed_readMembers? : {fuel : Nat} → {before members : List (String × Json)} →
    {cs rest : List Char} → (∀ entry ∈ before, entry.2.Keyed) →
    readMembers? fuel before cs = some (members, rest) → ∀ entry ∈ members, entry.2.Keyed
  | 0, _, _, _, _, _, h => by cases h
  | fuel + 1, before, members, cs, rest, hbefore, h => by
      rw [readMembers?] at h
      split at h
      · split at h
        · cases h
        · rename_i key afterKey hkey
          split at h
          · split at h
            · cases h
            · rename_i value more hvalue
              have hbefore : ∀ other ∈ (key, value) :: before, other.2.Keyed :=
                List.forall_mem_cons.2 ⟨keyed_readValue? hvalue, hbefore⟩
              split at h
              · exact keyed_readMembers? hbefore h
              · cases h
                exact hbefore
              · cases h
          · cases h
      · cases h

end

/-- What is read from a text has different keys in each object. -/
theorem keyed_read? {text : String} {j : Json} (h : read? text = some j) : j.Keyed := by
  unfold read? readChars? at h
  split at h
  · rename_i value rest hvalue
    split at h
    · cases h
      exact keyed_readValue? hvalue
    · cases h
  · cases h

end TensorGraph.Json
