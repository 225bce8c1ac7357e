import TensorGraph.Number

/-!
# Settings of a command

What the keys of a command are set to. A key holds one item, or several where keys with
points in them reach into something that is no group.
-/

namespace TensorGraph.CommandLine

/-- One thing that a key is set to. -/
inductive Item where
  | text (s : String)
  | number (x : Number)
  | flag (b : Bool)
  /-- A value that was left out. -/
  | missing
  /-- What keys with points are put into. -/
  | group
  deriving DecidableEq, Repr

/-- What a key is set to. -/
inductive Setting where
  | one (item : Item)
  | many (items : List Item)
  deriving DecidableEq, Repr

/-- How an item is shown. -/
def Item.shown : Item → String
  | .text s => s
  | .number x => x.text
  | .flag b => if b then "true" else "false"
  | .missing => "undefined"
  | .group => "[object Object]"

namespace Setting

/-- How a setting is shown. In a list what is missing is not shown. -/
def shown : Setting → String
  | .one item => item.shown
  | .many items =>
      String.intercalate "," (items.map fun item => if item = .missing then "" else item.shown)

/-- Whether a setting counts as switched on. -/
def isOn : Setting → Bool
  | .one (.text s) => s != ""
  | .one (.number x) => !(x.same (.int 0) || !x.same x)
  | .one (.flag b) => b
  | .one .missing => false
  | .one .group => true
  | .many _ => true

/-- A setting counted up by one. A text is continued by the digit. -/
def next : Setting → Item
  | .one (.number x) => .number (x.plus (.int 1))
  | .one (.flag b) => .number (.int (if b then 2 else 1))
  | .one .missing => .number (.int 1)
  | s => .text (s.shown ++ "1")

end Setting

end TensorGraph.CommandLine
