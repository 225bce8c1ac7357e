import TensorGraph.Graph.Reader
import TensorGraph.Graph.Writer
import TensorGraph.Json.Printer
import TensorGraph.Json.Reader

/-!
# Graphs as documents

A graph is kept in a file as the indented text of its interchange form, with a line end
after it. Reading accepts any valid JSON text of such a form.

## Main results

* `Graph.ofText_of_unreadable` -- a text that is no JSON is refused under the name of
  its file.
-/

namespace TensorGraph.Graph

/-- The text of a graph, without the line end of a file. -/
def text (g : Graph) : String := Json.indented g.toJson

/-- The text of the file that keeps a graph. -/
def document (g : Graph) : String := g.text ++ "\n"

/-- The graph that the text of a file keeps. -/
def ofText (file text : String) : Except Failure Graph :=
  match Json.read? text with
  | none => .error (.invalidJson file)
  | some json => ofJson (some json)

theorem ofText_of_unreadable {file text : String} (h : Json.read? text = none) :
    ofText file text = .error (.invalidJson file) := by
  simp [ofText, h]

end TensorGraph.Graph
