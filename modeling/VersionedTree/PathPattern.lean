import VersionedTree.Failure

/-!
# Path patterns

Patterns say which paths to take. Where a traversal asks for a function that decides on paths, a
pattern is one that can be written down.
-/

namespace VersionedTree

inductive PathPattern where
  | everything
  | nothing
  | beginning (text : String)
  | ending (text : String)
  | containing (text : String)
  | oneOf (texts : List String)
  | slashesUpTo (limit : Int)
  | negated (pattern : PathPattern)
  /-- Everything, but deciding on this text fails. -/
  | failingAt (text : String) (failure : Failure)
  deriving Inhabited

namespace PathPattern

def occurs (part : List Char) : List Char → Bool
  | [] => part.isEmpty
  | c :: rest => part.isPrefixOf (c :: rest) || occurs part rest

theorem occurs_iff (part text : List Char) : occurs part text = true ↔ part <:+: text := by
  induction text with
  | nil => simp [occurs]
  | cons c rest ih => simp [occurs, ih, List.infix_cons_iff]

def accepts : PathPattern → String → Except Failure Bool
  | everything, _ => .ok true
  | nothing, _ => .ok false
  | beginning text, path => .ok (Path.beginsWith text path)
  | ending text, path => .ok (text.toList.isSuffixOf path.toList)
  | containing text, path => .ok (occurs text.toList path.toList)
  | oneOf texts, path => .ok (texts.contains path)
  | slashesUpTo limit, path => .ok ((path.toList.count '/' : Int) ≤ limit)
  | negated pattern, path => (accepts pattern path).map not
  | failingAt text failure, path => if path = text then .error failure else .ok true

end PathPattern

end VersionedTree
