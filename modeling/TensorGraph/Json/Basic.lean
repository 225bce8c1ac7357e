import TensorGraph.Number

/-!
# JSON values

The values of the interchange format. The members of an object have an order, which
decides in which order attributes are visited and printed: keys that are canonical
array indices come first, by size, and the others follow as they were written. Of
members with one key the last value counts, in the place of the first.

## Main results

* `Json.at?_append` -- following two paths one after the other is following their
  concatenation.
-/

namespace TensorGraph

/-- A JSON value. -/
inductive Json where
  | null
  | bool (b : Bool)
  | num (x : Number)
  | str (s : String)
  | arr (items : List Json)
  | obj (members : List (String × Json))

instance : Inhabited Json := ⟨.null⟩

namespace Json

/-- One step into a value. -/
inductive Step where
  | key (name : String)
  | index (i : Nat)
  deriving DecidableEq, Repr

/-- A way into a value, from its root. -/
abbrev Path := List Step

/-- A path in messages: a dollar sign for the root, a point before a key and brackets
around an index. -/
def Path.text (path : Path) : String :=
  "$" ++ String.join (path.map fun
    | .key name => "." ++ name
    | .index i => "[" ++ toString i ++ "]")

/-- The member of an object. -/
def get? : Json → String → Option Json
  | .obj members, key => members.lookup key
  | _, _ => none

/-- The item of an array. -/
def item? : Json → Nat → Option Json
  | .arr items, i => items[i]?
  | _, _ => none

/-- The value that one step leads to. -/
def step? (j : Json) : Step → Option Json
  | .key name => j.get? name
  | .index i => j.item? i

/-- The value that a path leads to. -/
def at? (j : Json) : Path → Option Json
  | [] => some j
  | step :: rest => (j.step? step).bind (·.at? rest)

theorem at?_append (j : Json) (p q : Path) : j.at? (p ++ q) = (j.at? p).bind (·.at? q) := by
  induction p generalizing j with
  | nil => rfl
  | cons step rest ih =>
      cases h : j.step? step with
      | none => simp [at?, h]
      | some inner => simp [at?, h, ih]

/-! ## The order of members -/

/-- The array index that a key is, if it is a canonical one: digits without a leading
zero, below the largest number of 32 bits. -/
def indexKey? (key : String) : Option Nat :=
  let cs := key.toList
  if cs.isEmpty || !cs.all Char.isDigit then none
  else if cs.head? == some '0' && cs.length != 1 then none
  else if 10 < cs.length then none
  else
    let n := cs.foldl (fun value c => value * 10 + (c.toNat - '0'.toNat)) 0
    if n < 4294967295 then some n else none

/-- The members with one more behind them, or with a new value for a key that is there. -/
def putMember (members : List (String × Json)) (key : String) (value : Json) :
    List (String × Json) :=
  if members.any (·.1 == key) then
    members.map fun (k, v) => if k == key then (k, value) else (k, v)
  else members ++ [(key, value)]

/-- Array indices by size, then the other members as they are. -/
def orderMembers {α : Type} (members : List (String × α)) : List (String × α) :=
  let indexed := members.filterMap fun (k, v) => (indexKey? k).map fun i => (i, k, v)
  let named := members.filter fun (k, _) => (indexKey? k).isNone
  (indexed.mergeSort fun a b => a.1 ≤ b.1).map (·.2) ++ named

/-- The object with members in the order in which they were written. -/
def ofMembers (written : List (String × Json)) : Json :=
  .obj (orderMembers (written.foldl (fun members (k, v) => putMember members k v) []))

end Json

end TensorGraph
