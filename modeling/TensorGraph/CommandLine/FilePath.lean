import TensorGraph.Failure
import TensorGraph.Text.Halves

/-!
# File paths

Where a path leads in a folder of files. A path is walked part by part between slashes: a
part is the place itself, the place around it, or a name, and all places but the last have
to be directories. A directory is there when some file is in it. Outside of the folder no
files are known. What is written there is lost, as it is in the null device.

## Main results

* `put_self` -- what is put into a folder is found there.
* `write_nullDevice` -- what is written to the null device leaves the folder as it is.
-/

namespace TensorGraph.CommandLine

/-- Files with the names of the directories that lead to them and their own, and their
texts. -/
abbrev Folder := List (List String × String)

namespace Folder

/-- The text of the file with the given names. -/
def get? (folder : Folder) (names : List String) : Option String := folder.lookup names

/-- Whether names lead to a directory. -/
def isDirectory (folder : Folder) (names : List String) : Bool :=
  names.isEmpty || folder.any fun file => names.isPrefixOf file.1 && names != file.1

/-- The folder with a text put into the file with the given names. -/
def put (folder : Folder) (names : List String) (text : String) : Folder :=
  if folder.any (·.1 == names) then
    folder.map fun file => (file.1, if file.1 = names then text else file.2)
  else folder ++ [(names, text)]

private theorem lookup_replaced {folder : Folder} {names : List String} (text : String)
    (h : folder.any (·.1 == names) = true) :
    (folder.map fun file => (file.1, if file.1 = names then text else file.2)).lookup names =
      some text := by
  induction folder with
  | nil => simp at h
  | cons file rest ih =>
      rw [List.map_cons, List.lookup_cons]
      by_cases hfile : file.1 = names
      · simp [hfile]
      · simp only [beq_false_of_ne fun e => hfile e.symm]
        exact ih (by simpa [hfile] using h)

theorem put_self (folder : Folder) (names : List String) (text : String) :
    (folder.put names text).get? names = some text := by
  unfold put get?
  split
  · exact lookup_replaced text (by assumption)
  · rename_i h
    have hnone : folder.lookup names = none := List.lookup_eq_none_iff.2 fun file hfile => by
      have hne : ¬ file.1 = names := fun e => h (List.any_eq_true.2 ⟨file, hfile, by simp [e]⟩)
      simpa using fun e : names = file.1 => hne e.symm
    rw [List.lookup_append, hnone]
    simp

/-! ## Walking -/

/-- A directory of the folder, or some place outside. -/
abbrev Place := Option (List String)

/-- How many bytes a name may have. -/
def nameLimit : Nat := 255

/-- How many bytes a path may have. -/
def pathLimit : Nat := 4095

/-- Whether a name is too long. -/
def isLong (name : String) : Bool := nameLimit < (Text.plain name).utf8ByteSize

/-- The directories that are known to lie outside. -/
def outsideDirectories : List String := ["dev", "tmp"]

/-- Whether a name is that of a directory in some place. -/
def hasDirectory (folder : Folder) (place : Place) (name : String) : Bool :=
  match place with
  | none => outsideDirectories.contains name
  | some names => folder.isDirectory (names ++ [name])

/-- The text of the file with a name in some place. -/
def textAt? (folder : Folder) (place : Place) (name : String) : Option String :=
  place.bind fun names => folder.get? (names ++ [name])

/-- The directory that a part of a path leads to. -/
def enter (folder : Folder) (place : Place) (part : String) : Except FileFault Place :=
  if part = "" ∨ part = "." then .ok place
  else if part = ".." then .ok (place.bind fun names => if names = [] then none else names.dropLast)
  else if isLong part then .error .nameTooLong
  else if folder.hasDirectory place part then .ok (place.map fun names => names ++ [part])
  else if (folder.textAt? place part).isSome then .error .notDirectory
  else .error .missing

/-- Where a path leads. -/
inductive Target where
  | directory
  /-- A name in a directory, with a slash behind it or not. -/
  | name (place : Place) (last : String) (slash : Bool)

/-- The target of a path. -/
def target (folder : Folder) (path : String) : Except FileFault Target := do
  if path = "" then .error .missing
  if pathLimit < (Text.plain path).utf8ByteSize then .error .nameTooLong
  let parts := path.splitOn "/"
  match parts.reverse.dropWhile (· = "") with
  | [] => return .directory
  | last :: before =>
      let start : Place := if parts.head? = some "" then none else some []
      let place ← before.reverse.foldlM folder.enter start
      if last = "." ∨ last = ".." then return .directory
      else return .name place last (parts.getLast? = some "")

/-- The file that is empty and keeps nothing. -/
def nullDevice : String := "/dev/null"

/-- Whether there is a null in a path, which is none then. -/
def hasNull (path : String) : Bool := path.toList.contains '\x00'

/-- The text of a file. -/
def read (folder : Folder) (path : String) : Except Failure String :=
  let cannot (fault : FileFault) := Except.error (Failure.cannotOpen fault path)
  if hasNull path then .error (.nullByte path)
  else if path = nullDevice then .ok ""
  else
    match folder.target (Text.mended path) with
    | .error fault => cannot fault
    | .ok .directory => .error .directoryRead
    | .ok (.name place last slash) =>
        if isLong last then cannot .nameTooLong
        else if folder.hasDirectory place last then .error .directoryRead
        else
          match folder.textAt? place last with
          | none => cannot .missing
          | some text => if slash then cannot .notDirectory else .ok text

/-- The folder with a text written to a file. -/
def write (folder : Folder) (path text : String) : Except Failure Folder :=
  let cannot (fault : FileFault) := Except.error (Failure.cannotOpen fault path)
  if hasNull path then .error (.nullByte path)
  else if path = nullDevice then .ok folder
  else
    match folder.target (Text.mended path) with
    | .error fault => cannot fault
    | .ok .directory => cannot .isDirectory
    | .ok (.name place last slash) =>
        if slash then cannot .isDirectory
        else if isLong last then cannot .nameTooLong
        else if folder.hasDirectory place last then cannot .isDirectory
        else .ok (place.elim folder fun names => folder.put (names ++ [last]) (Text.mended text))

@[simp] theorem write_nullDevice (folder : Folder) (text : String) :
    folder.write nullDevice text = .ok folder := by
  have h : hasNull nullDevice = false := by decide
  simp [write, h]

end Folder

end TensorGraph.CommandLine
