import Ethereum.HashFunction
import Ethereum.Rlp.Head
import Ethereum.Trie.Nibble

/-!
# Merkle-Patricia tries

A `Node` is a trie from paths of nibbles to byte strings: a leaf holds the rest of one path, an
extension the part that all paths below it share, and a branch one child for each next nibble and
the value of the path that ends there. `ofEntries` builds the one trie of a list of entries with
distinct paths, and `get?` looks a path up.

`encode` writes a node as a list item. A child whose encoding is shorter than 32 bytes stands in
its parent as it is, a longer one by its digest. The root of a trie is the digest of its top node.
-/

namespace Ethereum.Trie

/-- A trie from paths to byte strings. -/
inductive Node where
  /-- The trie without entries. -/
  | empty
  /-- One entry, whose path goes on as given. -/
  | leaf (path : List Nibble) (value : Bytes)
  /-- Entries whose paths all go on as given. -/
  | extension (path : List Nibble) (child : Node)
  /-- Entries by their next nibble, and the value of the path that ends here. -/
  | branch (children : Nibble → Node) (value : Option Bytes)

/-- A path and the value at its end. -/
abbrev Entry := List Nibble × Bytes

/-! ## Building -/

/-- The longest path that two paths both begin with. -/
def commonStart : List Nibble → List Nibble → List Nibble
  | a :: as, b :: bs => if a = b then a :: commonStart as bs else []
  | _, _ => []

/-- The longest path that every path of a list of entries begins with. -/
def sharedPath : List Entry → List Nibble
  | [] => []
  | (path, _) :: rest => rest.foldl (fun shared entry => commonStart shared entry.1) path

/-- The entries with the first `n` nibbles of each path left out. -/
def dropNibbles (n : Nat) (entries : List Entry) : List Entry :=
  entries.map fun (path, value) => (path.drop n, value)

/-- The entries whose path goes on with the given nibble, with that nibble left out. -/
def childEntries (next : Nibble) (entries : List Entry) : List Entry :=
  entries.filterMap fun
    | ([], _) => none
    | (nibble :: path, value) => if nibble = next then some (path, value) else none

/-- The value of the first entry whose path is at its end. -/
def valueHere (entries : List Entry) : Option Bytes :=
  (entries.find? fun entry => entry.1.isEmpty).map (·.2)

/-- A bound on the work left: every nibble of every path, and one for each entry. -/
def mass : List Entry → Nat
  | [] => 0
  | (path, _) :: rest => path.length + 1 + mass rest

theorem mass_dropNibbles_le (n : Nat) (entries : List Entry) :
    mass (dropNibbles n entries) ≤ mass entries := by
  induction entries with
  | nil => simp [dropNibbles]
  | cons entry rest ih =>
    simp only [mass, dropNibbles, List.map_cons, List.length_drop] at ih ⊢
    omega

theorem mass_childEntries_add_length_le (next : Nibble) (entries : List Entry) :
    mass (childEntries next entries) + entries.length ≤ mass entries := by
  induction entries with
  | nil => simp [childEntries, mass]
  | cons entry rest ih =>
    obtain ⟨path, value⟩ := entry
    cases path with
    | nil => simp_all [childEntries, mass]; omega
    | cons nibble path =>
      by_cases h : nibble = next <;> simp_all [childEntries, mass] <;> omega

/-- The trie of a list of entries with distinct paths. -/
def Node.ofEntries : List Entry → Node
  | [] => .empty
  | [(path, value)] => .leaf path value
  | first :: second :: rest =>
    let shared := sharedPath (first :: second :: rest)
    let below := dropNibbles shared.length (first :: second :: rest)
    let fork := .branch (fun next => ofEntries (childEntries next below)) (valueHere below)
    if shared.isEmpty then fork else .extension shared fork
termination_by entries => mass entries
decreasing_by
  have hchild := mass_childEntries_add_length_le next below
  have hbelow := mass_dropNibbles_le shared.length (first :: second :: rest)
  have hlength : below.length = rest.length + 2 := by simp [below, dropNibbles]
  change mass (childEntries next below) < mass (first :: second :: rest)
  change mass below ≤ _ at hbelow
  omega

/-- The value at the end of a path. -/
def Node.get? : Node → List Nibble → Option Bytes
  | .empty, _ => none
  | .leaf path value, key => if key = path then some value else none
  | .extension path child, key =>
    if path.isPrefixOf key then child.get? (key.drop path.length) else none
  | .branch _ value, [] => value
  | .branch children _, nibble :: key => (children nibble).get? key

/-! ## Hashing -/

section
variable [HashFunction]

/-- How a node stands in its parent: as it is when it is shorter than 32 bytes, and by its digest
otherwise. -/
def reference (encoded : Bytes) : Bytes :=
  if Bytes.hasAtLeast 32 encoded then Rlp.encodeString (digest encoded).toBytes else encoded

/-- A node as an item. -/
def Node.encode : Node → Bytes
  | .empty => Rlp.encodeString []
  | .leaf path value =>
    Rlp.encodeList (Rlp.encodeString (compactPath true path) ++ Rlp.encodeString value)
  | .extension path child =>
    Rlp.encodeList (Rlp.encodeString (compactPath false path) ++ reference child.encode)
  | .branch children value =>
    Rlp.encodeList
      ((List.finRange 16).flatMap (fun next => reference (children next).encode) ++
        Rlp.encodeString (value.getD []))

/-- The root of a trie: the digest of its top node, however short that is. -/
def Node.root (node : Node) : Hash := digest node.encode

end

end Ethereum.Trie
