import VersionedTree.Path
import VersionedTree.Revision
import VersionedTree.Sha256

/-!
# Document ids

The id of a document begins with a depth and a colon. For an ordinary path the path follows; for a
long one an `h`, the digest of the parent path, a slash and the name; for a previous document a
`p`, the path, the revision and the height at which it was split off.
-/

namespace VersionedTree.DocumentId

/-- Why an id does not tell a path. -/
inductive Error where
  | hashed (id : String)
  | malformed (id : String)
  deriving DecidableEq

def Error.message : Error → String
  | .hashed id => "Id is hashed: " ++ id
  | .malformed id => "Not a document id: " ++ id

def ofPath (path : String) : String :=
  toString (Path.depth path) ++ ":" ++
    if Path.isLong path then "h" ++ Sha256.hexDigest (Path.parent path) ++ "/" ++ Path.name path
    else path

def previous (path : String) (revision : Revision) (height : Int) : String :=
  toString (Path.depth path + 2) ++ ":p" ++ String.ofList (Path.trimmed path) ++ "/"
    ++ revision.text ++ "/" ++ toString height

def body? (id : String) : Option (List Char) :=
  match id.toList.dropWhile (· != ':') with
  | [] => none
  | _ :: rest => some rest

def marker? (id : String) : Option Char := (body? id).bind List.head?

def isHashed (id : String) : Bool := marker? id == some 'h'

/-- Is it the id of a previous document? The colon must not be the first character. -/
def isPrevious (id : String) : Bool :=
  id.toList.head? != some ':' && marker? id == some 'p'

/-- The path behind the first colon, unless it was digested. -/
def path (id : String) : Except Error String :=
  if isHashed id then .error (.hashed id)
  else match body? id with
    | none => .error (.malformed id)
    | some rest => .ok (String.ofList rest)

end VersionedTree.DocumentId
