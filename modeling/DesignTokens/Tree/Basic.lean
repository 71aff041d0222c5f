import DesignTokens.Json.Reader
import DesignTokens.Tree.Token

/-!
# Token trees

A tree holds tokens in nested groups. Entries whose key starts with `$` are metadata; they and values
that are no objects are carried along raw, so that a tree is written back as it was read.

A node is found by its path, the keys on the way to it joined by dots. A key that is empty or holds a
dot takes part in no path that can be followed.
-/

namespace DesignTokens

open Text

/-- An entry of a group. -/
inductive Node where
  | token (t : Token)
  /-- A group and its entries in the order of their keys. -/
  | group (children : List (String × Node))
  /-- Metadata, or a value where a token or a group was expected. -/
  | raw (value : Json)

/-- The entries of a group. -/
abbrev Group := KeyedList Node

/-- Whether a key is one of metadata. -/
def isMetadataKey (key : String) : Bool := key.toList.head? = some '$'

namespace Node

mutual

/-- The node that a JSON value under a key is. -/
def ofJson (key : String) : Json → Node
  | .object entries =>
    if isMetadataKey key then .raw (.object entries)
    else
      match Token.ofEntries? entries with
      | some t => .token t
      | none => .group (ofEntries entries)
  | value => .raw value

/-- The nodes that the entries of an object are. -/
def ofEntries : List (String × Json) → List (String × Node)
  | [] => []
  | (key, value) :: entries => (key, ofJson key value) :: ofEntries entries

end

mutual

/-- The JSON value of a node. -/
def toJson : Node → Json
  | .token t => t.toJson
  | .group children => .object (toEntries children)
  | .raw value => value

/-- The entries of the object that a group is. -/
def toEntries : List (String × Node) → List (String × Json)
  | [] => []
  | (key, node) :: children => (key, toJson node) :: toEntries children

end

/-- The token that a node is. -/
def token? : Node → Option Token
  | .token t => some t
  | _ => none

/-- The entries of the group that a node is. -/
def children? : Node → Option Group
  | .group children => some children
  | _ => none

/-- The node reached from a node by keys that are not empty. -/
def descend? (node : Node) : List String → Option Node
  | [] => some node
  | key :: keys =>
    if key.isEmpty then none
    else
      match node with
      | .group children =>
        match KeyedList.get? children key with
        | some child => descend? child keys
        | none => none
      | _ => none

end Node

/-- The path of an entry in the group at a path; the root has the empty path. -/
def joinPath (path key : String) : String := if path.isEmpty then key else path ++ "." ++ key

/-- The keys that a path joins. -/
def pathKeys (path : String) : List String := (splitAt '.' path.toList).map String.ofList

namespace Group

mutual

/-- The paths of the tokens in a node at a path, depth first. -/
def nodePaths (path : String) : Node → List String
  | .token _ => [path]
  | .group children => paths path children
  | .raw _ => []

/-- The paths of the tokens in the entries of a group at a path, depth first. -/
def paths (path : String) : List (String × Node) → List String
  | [] => []
  | (key, node) :: children => nodePaths (joinPath path key) node ++ paths path children

end

mutual

/-- How many tokens a node holds. -/
def nodeTokenCount : Node → Nat
  | .token _ => 1
  | .group children => tokenCount children
  | .raw _ => 0

/-- How many tokens the entries of a group hold. -/
def tokenCount : List (String × Node) → Nat
  | [] => 0
  | (_, node) :: children => nodeTokenCount node + tokenCount children

end

end Group

/-- A token tree: the entries of its root. -/
structure Tree where
  root : Group

/-- Why there is no tree. -/
inductive TreeError where
  /-- The root is a value of another kind. -/
  | notAnObject (found : String)
  /-- The text is not JSON. -/
  | json (error : Json.ReadError)
  deriving DecidableEq, Repr

/-- The wording of a failure. -/
def TreeError.message : TreeError → String
  | .notAnObject found => "token tree root must be a JSON object, found " ++ found
  | .json error => "token tree is not valid JSON: " ++ error.message

namespace Tree

/-- The tree without entries. -/
def empty : Tree := ⟨[]⟩

/-- The tree that a JSON value is. -/
def ofJson : Json → Except TreeError Tree
  | .object entries => .ok ⟨Node.ofEntries entries⟩
  | value => .error (.notAnObject value.kind)

/-- The tree that a JSON text writes. -/
def parse (text : String) : Except TreeError Tree :=
  match Json.parse text with
  | .ok value => ofJson value
  | .error e => .error (.json e)

def toJson (t : Tree) : Json := .object (Node.toEntries t.root)

/-- The node at a path. -/
def node? (t : Tree) (path : String) : Option Node := (Node.group t.root).descend? (pathKeys path)

/-- The token at a path. -/
def token? (t : Tree) (path : String) : Option Token := (t.node? path).bind Node.token?

/-- The paths of all tokens, depth first in the order of the keys. -/
def paths (t : Tree) : List String := Group.paths "" t.root

def tokenCount (t : Tree) : Nat := Group.tokenCount t.root

end Tree

end DesignTokens
