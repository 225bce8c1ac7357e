import TensorGraph.CommandLine.FilePath
import TensorGraph.CommandLine.Session

/-!
# Sessions in a folder

Carrying out a session in a folder collects its lines and writes its files. A session whose
file cannot be written ends there, with a failure. Texts of files and of the environment are
mended on their way, since no lone half of a pair can be kept outside.

## Main results

* `Folder.carryOut_nil` -- a session without steps leaves the folder as it is.
-/

namespace TensorGraph.CommandLine.Folder

/-- The folder of files that are given by their paths. -/
def ofFiles (files : List (String × String)) : Folder :=
  files.map fun (path, text) =>
    let parts := (Text.mended path).splitOn "/"
    (parts.filter fun part => part != "" && part != ".", Text.mended text)

/-- The files of a folder by their paths. -/
def toFiles (folder : Folder) : List (String × String) :=
  folder.map fun (names, text) => (String.intercalate "/" names, text)

/-- What a session leaves behind. -/
structure Outcome where
  output : List String := []
  complaints : List String := []
  folder : Folder
  code : Nat := 0

/-- Carries out the steps of a session, which ends with the given code. -/
def carryOut (code : Nat) : List Action → Outcome → Outcome
  | [], sofar => { sofar with code }
  | .output line :: rest, sofar =>
      carryOut code rest { sofar with output := sofar.output ++ [line] }
  | .complaint line :: rest, sofar =>
      carryOut code rest { sofar with complaints := sofar.complaints ++ [line] }
  | .detail _ :: rest, sofar => carryOut code rest sofar
  | .write file text :: rest, sofar =>
      match sofar.folder.write file text with
      | .ok folder => carryOut code rest { sofar with folder }
      | .error cause =>
          { sofar with complaints := sofar.complaints ++ [failureLine cause], code := 1 }

@[simp] theorem carryOut_nil (code : Nat) (sofar : Outcome) :
    carryOut code [] sofar = { sofar with code } := rfl

/-- The outcome of a command in a folder. -/
def run (folder : Folder) (environment : List (String × String)) (args : List String) : Outcome :=
  let environment := environment.map fun (name, value) => (name, Text.mended value)
  let s := session environment folder.read args
  carryOut s.code s.actions { folder }

end TensorGraph.CommandLine.Folder
