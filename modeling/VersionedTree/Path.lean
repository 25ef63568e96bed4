/-!
# Paths

A path is a text of names joined by slashes, and the root is a single slash. Callers may hand in
any text: `names` gives it a meaning, and the comparisons below work on the text itself.
-/

namespace VersionedTree.Path

def root : String := "/"

/-- A path with more characters than this is long: its document is stored under a digest. -/
def longLimit : Nat := 165

/-- The subtrees that a traversal leaves out unless it is told otherwise. -/
def defaultHiddenRoots : List String := ["/jcr:system"]

/-- The names of a path, outermost first. Nothing between two slashes is no name. -/
def names (path : String) : List String :=
  ((path.toList.splitOn '/').filter fun piece => !piece.isEmpty).map String.ofList

def depth (path : String) : Nat := (names path).length

/-- The innermost name, or the empty text for a path without names. -/
def name (path : String) : String := (names path).getLastD ""

def isAbsolute (path : String) : Bool := path.toList.head? == some '/'

def isLong (path : String) : Bool := longLimit < path.length

def trimmed (path : String) : List Char :=
  (path.toList.reverse.dropWhile (· == '/')).reverse

/-- All before the last slash of the trimmed path; the root is its own parent, and a path whose
last slash is its first one, or that has none, is a child of the root. -/
def parent (path : String) : String :=
  match (trimmed path).reverse.dropWhile (· != '/') with
  | [] => root
  | _ :: before => if before.isEmpty then root else String.ofList before.reverse

/-- A relative path below a parent, joined by one slash unless the parent ends in one. -/
def join (parent relative : String) : String :=
  if relative.isEmpty then parent
  else if parent.toList.getLast? == some '/' then parent ++ relative
  else parent ++ "/" ++ relative

def beginsWith (start path : String) : Bool := start.toList.isPrefixOf path.toList

/-- Does `path` lie strictly below `ancestor`? Decided on the texts: below the root is all that
is absolute, below another path all that continues it with a slash. -/
def isAncestor (ancestor path : String) : Bool :=
  if ancestor == path then false
  else if ancestor == root then isAbsolute path
  else beginsWith (ancestor ++ "/") path

/-- Does a colon follow a slash somewhere, so that some name starts with a colon? -/
def hasColonName : List Char → Bool
  | '/' :: ':' :: _ => true
  | _ :: rest => hasColonName rest
  | [] => false

/-- A path is hidden when one of its names starts with a colon, or when it is one of the hidden
roots or lies below one. -/
def isHidden (path : String) (hiddenRoots : List String) : Bool :=
  hasColonName path.toList || hiddenRoots.any fun top => path == top || isAncestor top path

end VersionedTree.Path
