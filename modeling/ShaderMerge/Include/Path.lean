import ShaderMerge.Text.Scan

/-!
# Paths of a project

Paths are relative to the root of the project, with slashes between their components.
`resolve?` gives the one path that an include text means in a file: it reads backslashes as
slashes, starts from the directory of the file unless the text starts at a root of assets, and
takes out empty components, `.` and `..`.
-/

namespace ShaderMerge.Include

/-- Whether a character stands between two components. -/
def isSeparator (c : Char) : Bool := c == '/' || c == '\\'

/-- The last component of a path. -/
def fileName (path : String) : String :=
  String.ofList (((Text.splitWhere isSeparator path.toList).getLast?).getD [])

/-- The last component of a path up to its first dot. -/
def fileStem (path : String) : String :=
  String.ofList ((fileName path).toList.takeWhile (· != '.'))

/-- The directories of the project that include texts may start from. -/
def assetRoots : List String := ["Assets/", "Packages/"]

/-- The text of a path up to its last slash, with the slash; nothing for a path without one. -/
def directory (path : List Char) : List Char :=
  Text.dropEndWhile (· != '/') path

/-- Take one component to a path, whose components are given last first: `..` leaves the last
directory, and there must be one. -/
def addComponent (path : List (List Char)) (component : List Char) :
    Option (List (List Char)) :=
  if component = [] || component = ['.'] then some path
  else if component = ['.', '.'] then
    match path with
    | [] => none
    | _ :: outer => some outer
  else some (component :: path)

/-- The components of a text, with `.` and `..` taken out; `none` if it leaves the root. -/
def components? (cs : List Char) : Option (List (List Char)) :=
  ((Text.splitWhere (· == '/') cs).foldlM addComponent []).map List.reverse

/-- The path of a list of components. -/
def joinComponents (components : List (List Char)) : List Char :=
  ['/'].intercalate components

/-- The path that an include text means in a file; `none` if it leaves the project. -/
def resolve? (file text : String) : Option String :=
  let text := text.toList.map fun c => if c = '\\' then '/' else c
  let fromRoot := assetRoots.any fun root => (Text.after? root text).isSome
  let joined := if fromRoot then text else directory file.toList ++ text
  (components? joined).map fun components => String.ofList (joinComponents components)

end ShaderMerge.Include
