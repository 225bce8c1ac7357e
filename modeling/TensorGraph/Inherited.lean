/-!
# Inherited names

Counts, feeds, outputs and attributes are kept in objects of the interchange format, and such
an object answers to a dozen names before anything is put under them. Eleven lead to
functions and can be used like any others. The twelfth leads to the object that the others
come from, and nothing stays that is put there.

## Main results

* `Inherited.keeps_of_ofName?_eq_none` -- any other name keeps what is put under it.
-/

namespace TensorGraph

/-- What an object answers with before anything is put under a name. -/
inductive Inherited where
  /-- A function, of the given name. -/
  | function (name : String)
  /-- The object that the functions come from. -/
  | ancestor
  deriving DecidableEq, Repr

namespace Inherited

/-- The name that leads to the ancestor. -/
def ancestorName : String := "__proto__"

/-- The names that lead to functions, each with the name of its function. -/
def functions : List (String × String) :=
  ("constructor", "Object") ::
    ["__defineGetter__", "__defineSetter__", "hasOwnProperty", "__lookupGetter__",
      "__lookupSetter__", "isPrototypeOf", "propertyIsEnumerable", "toString", "valueOf",
      "toLocaleString"].map fun name => (name, name)

/-- What an object answers with under a name, if it answers at all. -/
def ofName? (name : String) : Option Inherited :=
  if name = ancestorName then some .ancestor
  else (functions.lookup name).map .function

/-- What is shown for an answer. -/
def text : Inherited → String
  | .function name => "function " ++ name ++ "() \x7b [native code] \x7d"
  | .ancestor => "[object Object]"

/-- Whether what is put under a name stays there. -/
def keeps (name : String) : Bool := name != ancestorName

theorem keeps_of_ofName?_eq_none {name : String} (h : ofName? name = none) :
    keeps name = true := by
  unfold ofName? at h
  split at h
  · simp at h
  · simpa [keeps] using by assumption

end Inherited

end TensorGraph
