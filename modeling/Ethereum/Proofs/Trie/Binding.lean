import Ethereum.Proofs.Rlp.Delimited
import Ethereum.Proofs.Trie.Lookup
import Mathlib.Data.List.Nodup

/-!
# What a root binds

A node is a list of cells, and each cell can be told from its bytes: a packed path, a value, or the
reference of a child. A reference of 33 bytes is a digest, and a shorter one the child itself, so a
reference binds the child as far as the hash function tells the hashed strings apart. By induction
on the node, an encoding binds the value at every path.

Only values need lengths of 64 bits. A path comes first in its node, and with a short value or a
reference behind it its end can be told however long it is, so lists of any length are bound.

A path without a value and one with the empty value look alike in a branch, which writes both as the
empty string. So what is bound is the value or, without one, the empty string.
-/

namespace Ethereum

/-- Whether the hash function tells the given strings apart. -/
def CollisionFree [HashFunction] (strings : List Bytes) : Prop :=
  ∀ a ∈ strings, ∀ b ∈ strings, digest a = digest b → a = b

/-- Strings with distinct digests do not collide. -/
theorem collisionFree_of_nodup [HashFunction] {strings : List Bytes}
    (h : (strings.map digest).Nodup) : CollisionFree strings := by
  intro a ha b hb heq
  exact List.inj_on_of_nodup_map h ha hb heq

namespace Trie

open Rlp

/-! ## Hashed strings -/

/-- What is hashed to put an encoded child into its parent. -/
def hashedReference (encoded : Bytes) : List Bytes :=
  if Bytes.hasAtLeast 32 encoded then [encoded] else []

theorem mem_hashedReference {encoded : Bytes} (h : 32 ≤ encoded.length) :
    encoded ∈ hashedReference encoded := by
  rw [hashedReference, if_pos (Bytes.hasAtLeast_iff.mpr h)]
  exact List.mem_singleton_self encoded

variable [HashFunction] {strings : List Bytes} {a b child node : Node}

/-- What is hashed below the top node of a trie. -/
def Node.hashedBelow : Node → List Bytes
  | .empty => []
  | .leaf _ _ => []
  | .extension _ child => hashedReference child.encode ++ child.hashedBelow
  | .branch children _ =>
    (List.finRange 16).flatMap fun next =>
      hashedReference (children next).encode ++ (children next).hashedBelow

/-- What is hashed for the root of a trie. -/
def Node.hashedStrings (node : Node) : List Bytes := node.encode :: node.hashedBelow

theorem mem_hashedBelow_branch {children : Nibble → Node} {value : Option Bytes}
    (h : (Node.branch children value).hashedBelow ⊆ strings) (next : Nibble) :
    hashedReference (children next).encode ⊆ strings ∧ (children next).hashedBelow ⊆ strings := by
  refine List.append_subset.mp fun s hs => h ?_
  exact List.mem_flatMap.mpr ⟨next, List.mem_finRange next, hs⟩

/-! ## References -/

theorem reference_of_lt {encoded : Bytes} (h : encoded.length < 32) :
    reference encoded = encoded := by
  rw [reference, if_neg]
  rw [Bytes.hasAtLeast_iff]
  omega

theorem reference_of_le {encoded : Bytes} (h : 32 ≤ encoded.length) :
    reference encoded = encodeItem .string (digest encoded).toBytes := by
  rw [reference, if_pos (Bytes.hasAtLeast_iff.mpr h), encodeItem_string]

/-- A reference by digest is longer than any child that stands in its parent as it is. -/
theorem length_reference_of_le {encoded : Bytes} (h : 32 ≤ encoded.length) :
    (reference encoded).length = 33 := by
  have hdigest : (digest encoded).toBytes.length = 32 := (digest encoded).length_toBytes
  rw [reference_of_le h, encodeItem_string, length_encodeString, stringSize,
    isOwnHead_of_length_ne (by omega), hdigest]
  decide

theorem length_reference_le (encoded : Bytes) : (reference encoded).length ≤ 33 := by
  by_cases h : 32 ≤ encoded.length
  · rw [length_reference_of_le h]
  · rw [reference_of_lt (by omega)]
    omega

/-- A reference binds the child as far as the hash function does. -/
theorem reference_inj {x y : Bytes} (hfree : CollisionFree strings)
    (hx : hashedReference x ⊆ strings) (hy : hashedReference y ⊆ strings)
    (h : reference x = reference y) : x = y := by
  have hlen := congrArg List.length h
  -- a digest and a child as it is differ in length, so both references are of one sort
  by_cases hlong : 32 ≤ x.length
  · have hx32 := length_reference_of_le hlong
    by_cases hlong' : 32 ≤ y.length
    · rw [reference_of_le hlong, reference_of_le hlong', encodeItem_string, encodeItem_string] at h
      refine hfree x (hx (mem_hashedReference hlong)) y (hy (mem_hashedReference hlong')) ?_
      exact FixedBytes.ext (encodeString_inj h)
    · have hshort : y.length < 32 := by omega
      rw [reference_of_lt hshort] at hlen
      omega
  · have hshort : x.length < 32 := by omega
    rw [reference_of_lt hshort] at h hlen
    by_cases hlong' : 32 ≤ y.length
    · have hy32 := length_reference_of_le hlong'
      omega
    · have hshort' : y.length < 32 := by omega
      rw [reference_of_lt hshort'] at h
      exact h

/-! ## Nodes as items -/

/-- The items that a node is the list of. -/
def Node.items : Node → List Bytes
  | .empty => []
  | .leaf path value => [encodeString (compactPath true path), encodeString value]
  | .extension path child => [encodeString (compactPath false path), reference child.encode]
  | .branch children value =>
    (List.finRange 16).map (fun next => reference (children next).encode) ++
      [encodeString (value.getD [])]

/-- The trie without entries is the empty string, and every other one is a list. -/
def Node.kind : Node → ItemKind
  | .empty => .string
  | _ => .list

/-- A node is one item, of its items. -/
theorem encode_eq_encodeItem (node : Node) :
    node.encode = encodeItem node.kind node.items.flatten := by
  cases node with
  | empty => exact (encodeItem_string []).symm
  | leaf path value => simp [Node.encode, Node.kind, Node.items, encodeItem_list]
  | extension path child => simp [Node.encode, Node.kind, Node.items, encodeItem_list]
  | branch children value =>
    simp [Node.encode, Node.kind, Node.items, encodeItem_list, List.flatMap_def]

/-- The value of a path that ends in a branch, or the empty string, is an item of the branch. -/
theorem encodeString_mem_items_branch (children : Nibble → Node) (value : Option Bytes) :
    encodeString (value.getD []) ∈ (Node.branch children value).items :=
  List.mem_append_right _ (List.mem_singleton_self _)

/-- Only the trie without entries has nothing to write. -/
theorem flatten_items_ne_nil (h : node ≠ .empty) : node.items.flatten ≠ [] := by
  obtain ⟨bs, hbs⟩ : ∃ bs, encodeString bs ∈ node.items := by
    cases node with
    | empty => exact absurd rfl h
    | leaf path value => exact ⟨_, List.mem_cons_self⟩
    | extension path child => exact ⟨_, List.mem_cons_self⟩
    | branch children value => exact ⟨_, encodeString_mem_items_branch children value⟩
  intro hnil
  exact (IsCell.string bs).ne_nil (List.flatten_eq_nil_iff.mp hnil _ hbs)

theorem encode_eq_encodeList (h : node ≠ .empty) : node.encode = encodeList node.items.flatten := by
  have hkind : node.kind = .list := by
    cases node with
    | empty => exact absurd rfl h
    | _ => rfl
  rw [encode_eq_encodeItem, hkind, encodeItem_list]

theorem isCell_reference (child : Node) : IsCell (reference child.encode) := by
  by_cases hlong : 32 ≤ child.encode.length
  · rw [reference_of_le hlong, encodeItem_string]
    exact .string _
  · rw [reference_of_lt (by omega)]
    by_cases hempty : child = .empty
    · subst hempty
      exact .string []
    · rw [encode_eq_encodeList hempty] at hlong ⊢
      rw [length_encodeList] at hlong
      exact .list (flatten_items_ne_nil hempty) (by omega)

theorem isCell_of_mem_items {item : Bytes} (h : item ∈ node.items) : IsCell item := by
  cases node with
  | empty => simp [Node.items] at h
  | leaf path value =>
    have hcases : item = encodeString (compactPath true path) ∨ item = encodeString value := by
      simpa [Node.items] using h
    rcases hcases with rfl | rfl
    · exact .string _
    · exact .string _
  | extension path child =>
    have hcases : item = encodeString (compactPath false path) ∨
        item = reference child.encode := by
      simpa [Node.items] using h
    rcases hcases with rfl | rfl
    · exact .string _
    · exact isCell_reference child
  | branch children value =>
    rcases List.mem_append.mp h with h | h
    · obtain ⟨next, -, rfl⟩ := List.mem_map.mp h
      exact isCell_reference (children next)
    · obtain rfl := List.mem_singleton.mp h
      exact .string _

/-! ## Nodes with the same encoding -/

/-- The references of the children of a branch are short together. -/
theorem length_flatten_references_le (children : Nibble → Node) (nexts : List Nibble) :
    (nexts.map fun next => reference (children next).encode).flatten.length ≤
      33 * nexts.length := by
  induction nexts with
  | nil => rfl
  | cons next nexts ih =>
    have hreference := length_reference_le (children next).encode
    rw [List.map_cons, List.flatten_cons, List.length_append, List.length_cons]
    omega

/-- What comes after the first item of a node is short, if the values are. -/
theorem length_flatten_tail_items_lt (h : node.ShortValues) :
    node.items.tail.flatten.length < 2 ^ 65 := by
  cases node with
  | empty => exact Nat.two_pow_pos 65
  | leaf path value =>
    have hvalue := length_encodeString_lt (h path value (by rw [Node.get?, if_pos rfl]))
    simp only [Node.items, List.tail_cons, List.flatten_singleton]
    omega
  | extension path child =>
    have hreference := length_reference_le child.encode
    simp only [Node.items, List.tail_cons, List.flatten_singleton]
    omega
  | branch children value =>
    have hshort : (value.getD []).length < 2 ^ 64 := by
      cases value with
      | none => exact Nat.two_pow_pos 64
      | some own => exact h [] own rfl
    have hvalue := length_encodeString_lt hshort
    have hchildren := length_flatten_references_le children (List.finRange 16)
    have htail := length_flatten_tail_le (Node.branch children value).items
    rw [List.length_finRange] at hchildren
    rw [Node.items, List.flatten_append, List.length_append, List.flatten_singleton] at htail
    rw [Node.items]
    omega

/-- An encoding binds the items of a node with short values. -/
theorem items_eq_of_encode_eq (ha : a.ShortValues) (hb : b.ShortValues)
    (h : a.encode = b.encode) : a.items = b.items := by
  -- a list of at least one item is longer than the empty string
  have hempty : ∀ node : Node, node ≠ .empty → node.encode ≠ Node.empty.encode := by
    intro node hne heq
    have hpos := List.length_pos_iff.mpr (flatten_items_ne_nil hne)
    have hsize := Head.size_pos node.items.flatten.length
    have hlen := congrArg List.length heq
    rw [encode_eq_encodeList hne, length_encodeList] at hlen
    have hone : Node.empty.encode.length = 1 := rfl
    omega
  by_cases hane : a = .empty
  · by_cases hbne : b = .empty
    · rw [hane, hbne]
    · exact absurd (hane ▸ h).symm (hempty b hbne)
  · by_cases hbne : b = .empty
    · exact absurd (hbne ▸ h) (hempty a hane)
    · rw [encode_eq_encodeList hane, encode_eq_encodeList hbne] at h
      exact flatten_inj_of_isCell (fun _ => isCell_of_mem_items) (fun _ => isCell_of_mem_items)
        (length_flatten_tail_items_lt ha) (length_flatten_tail_items_lt hb) (encodeList_inj h)

/-! ## Nodes with the same items -/

theorem eq_empty_of_items_eq (h : Node.empty.items = b.items) : b = .empty := by
  have hcount := congrArg List.length h
  cases b with
  | empty => rfl
  | _ => simp [Node.items] at hcount

/-- A leaf and an extension have as many items, but the flags of their paths differ. -/
theorem items_leaf_ne_items_extension (path path' : List Nibble) (value : Bytes) (child : Node) :
    (Node.leaf path value).items ≠ (Node.extension path' child).items := by
  intro h
  have hpath : encodeString (compactPath true path) = encodeString (compactPath false path') :=
    (List.cons.inj h).1
  exact absurd (compactPath_inj (encodeString_inj hpath)).1 (by decide)

theorem eq_leaf_of_items_eq {path : List Nibble} {value : Bytes}
    (h : (Node.leaf path value).items = b.items) : b = .leaf path value := by
  have hcount := congrArg List.length h
  cases b with
  | leaf path' value' =>
    obtain ⟨hpath, hvalue⟩ : encodeString (compactPath true path) =
        encodeString (compactPath true path') ∧ encodeString value = encodeString value' := by
      simpa [Node.items] using h
    rw [(compactPath_inj (encodeString_inj hpath)).2, encodeString_inj hvalue]
  | extension path' child' => exact absurd h (items_leaf_ne_items_extension _ _ _ _)
  | _ => simp [Node.items] at hcount

theorem exists_extension_of_items_eq {path : List Nibble}
    (h : (Node.extension path child).items = b.items) :
    ∃ child', b = .extension path child' ∧
      reference child.encode = reference child'.encode := by
  have hcount := congrArg List.length h
  cases b with
  | leaf path' value' => exact absurd h.symm (items_leaf_ne_items_extension _ _ _ _)
  | extension path' child' =>
    obtain ⟨hpath, hreference⟩ : encodeString (compactPath false path) =
        encodeString (compactPath false path') ∧
          reference child.encode = reference child'.encode := by
      simpa [Node.items] using h
    rw [(compactPath_inj (encodeString_inj hpath)).2]
    exact ⟨child', rfl, hreference⟩
  | _ => simp [Node.items] at hcount

theorem exists_branch_of_items_eq {children : Nibble → Node} {value : Option Bytes}
    (h : (Node.branch children value).items = b.items) :
    ∃ children' value', b = .branch children' value' ∧
      (∀ next, reference (children next).encode = reference (children' next).encode) ∧
      value.getD [] = value'.getD [] := by
  have hcount := congrArg List.length h
  cases b with
  | branch children' value' =>
    obtain ⟨hreferences, hvalue⟩ := List.append_inj' h rfl
    refine ⟨children', value', rfl, fun next => ?_, encodeString_inj (List.singleton_inj.mp hvalue)⟩
    exact List.map_inj_left.mp hreferences next (List.mem_finRange next)
  | _ => simp [Node.items] at hcount

/-! ## Values under a root -/

/-- An encoding binds the value at every path, as far as the hash function tells the hashed strings
apart. A branch does not tell the empty value from none. -/
theorem getD_get?_eq_of_encode_eq (hfree : CollisionFree strings) (ha : a.hashedBelow ⊆ strings)
    (hb : b.hashedBelow ⊆ strings) (hashort : a.ShortValues) (hbshort : b.ShortValues)
    (h : a.encode = b.encode) (key : List Nibble) :
    (a.get? key).getD [] = (b.get? key).getD [] := by
  have hitems := items_eq_of_encode_eq hashort hbshort h
  -- on the first node: the same items give the second one the same shape
  induction a generalizing b key with
  | empty => rw [eq_empty_of_items_eq hitems]
  | leaf path value => rw [eq_leaf_of_items_eq hitems]
  | extension path child ih =>
    obtain ⟨child', rfl, hreference⟩ := exists_extension_of_items_eq hitems
    obtain ⟨haref, habelow⟩ := List.append_subset.mp ha
    obtain ⟨hbref, hbbelow⟩ := List.append_subset.mp hb
    have hchild := reference_inj hfree haref hbref hreference
    have hshort := hashort.of_extension
    have hshort' := hbshort.of_extension
    rw [Node.get?, Node.get?]
    split
    · exact ih habelow hbbelow hshort hshort' hchild _
        (items_eq_of_encode_eq hshort hshort' hchild)
    · rfl
  | branch children value ih =>
    obtain ⟨children', value', rfl, hreference, hvalue⟩ := exists_branch_of_items_eq hitems
    cases key with
    | nil => exact hvalue
    | cons nibble key =>
      obtain ⟨haref, habelow⟩ := mem_hashedBelow_branch ha nibble
      obtain ⟨hbref, hbbelow⟩ := mem_hashedBelow_branch hb nibble
      have hchild := reference_inj hfree haref hbref (hreference nibble)
      have hshort := hashort.of_branch nibble
      have hshort' := hbshort.of_branch nibble
      exact ih nibble habelow hbbelow hshort hshort' hchild key
        (items_eq_of_encode_eq hshort hshort' hchild)

/-! ## Roots of lists -/

section
variable {α : Type} {c : Codec α} {xs ys : List α}

/-- An ordered root binds a list of items with lengths of 64 bits, as far as the hash function tells
the hashed strings apart. -/
theorem eq_of_orderedRoot_eq_of_length_lt (hc : c.Lawful) (hfree : CollisionFree strings)
    (hxlen : ∀ x ∈ xs, c.length x < 2 ^ 64) (hylen : ∀ y ∈ ys, c.length y < 2 ^ 64)
    (hxs : (ordered c xs).hashedStrings ⊆ strings) (hys : (ordered c ys).hashedStrings ⊆ strings)
    (h : orderedRoot c xs = orderedRoot c ys) : xs = ys := by
  obtain ⟨hxtop, hxbelow⟩ := List.cons_subset.mp hxs
  obtain ⟨hytop, hybelow⟩ := List.cons_subset.mp hys
  have hencode := hfree _ hxtop _ hytop h
  -- no item is the empty string, so what is bound at an index also says whether there is an item
  apply List.ext_getElem?
  intro index
  have hvalue := getD_get?_eq_of_encode_eq hfree hxbelow hybelow (shortValues_ordered hc hxlen)
    (shortValues_ordered hc hylen) hencode (nibbles (Codec.encodeNat index))
  rw [get?_ordered, get?_ordered] at hvalue
  cases hx : xs[index]? with
  | none =>
    cases hy : ys[index]? with
    | none => rfl
    | some y =>
      rw [hx, hy] at hvalue
      exact absurd hvalue.symm (hc.encode_ne_nil y)
  | some x =>
    cases hy : ys[index]? with
    | none =>
      rw [hx, hy] at hvalue
      exact absurd hvalue (hc.encode_ne_nil x)
    | some y =>
      rw [hx, hy] at hvalue
      rw [hc.encode_inj (hxlen x (List.mem_of_getElem? hx)) hvalue]

end

/-! ## Short hashed strings -/

theorem length_le_of_mem_items {item : Bytes} (h : item ∈ node.items) :
    item.length ≤ node.encode.length := by
  have hflatten := (List.sublist_flatten_of_mem h).length_le
  rw [encode_eq_encodeItem]
  exact Nat.le_trans hflatten (length_le_length_encodeItem _ _)

/-- A value of a node is a short string if the node is. -/
theorem length_lt_of_mem_items {bs : Bytes} (hlen : node.encode.length < 2 ^ 64)
    (h : encodeString bs ∈ node.items) : bs.length < 2 ^ 64 := by
  have hitem := length_le_of_mem_items h
  have hvalue := length_le_length_encodeString bs
  omega

/-- A child is a short string, or one of the hashed ones. -/
theorem length_encode_lt_of_hashedReference_subset (hsize : ∀ s ∈ strings, s.length < 2 ^ 64)
    (h : hashedReference child.encode ⊆ strings) : child.encode.length < 2 ^ 64 := by
  by_cases hlong : 32 ≤ child.encode.length
  · exact hsize _ (h (mem_hashedReference hlong))
  · omega

/-- A trie of short strings holds no long value. -/
theorem shortValues_of_hashedBelow_subset (hsize : ∀ s ∈ strings, s.length < 2 ^ 64)
    (hnode : node.hashedBelow ⊆ strings) (hlen : node.encode.length < 2 ^ 64) :
    node.ShortValues := by
  intro key value h
  induction node generalizing key with
  | empty => simp [Node.get?] at h
  | leaf path own =>
    rw [Node.get?] at h
    split at h
    · obtain rfl := Option.some.inj h
      exact length_lt_of_mem_items hlen (by simp [Node.items])
    · simp at h
  | extension path child ih =>
    obtain ⟨href, hbelow⟩ := List.append_subset.mp hnode
    rw [Node.get?] at h
    split at h
    · exact ih hbelow (length_encode_lt_of_hashedReference_subset hsize href) _ h
    · simp at h
  | branch children own ih =>
    cases key with
    | nil =>
      obtain rfl : own = some value := h
      exact length_lt_of_mem_items hlen (encodeString_mem_items_branch children _)
    | cons nibble key =>
      obtain ⟨href, hbelow⟩ := mem_hashedBelow_branch hnode nibble
      exact ih nibble hbelow (length_encode_lt_of_hashedReference_subset hsize href) key h

/-- A list has short items, if the strings hashed for its root are short. -/
theorem length_lt_of_hashedStrings_subset {α : Type} {c : Codec α} (hc : c.Lawful) {xs : List α}
    (hsize : ∀ s ∈ strings, s.length < 2 ^ 64) (hxs : (ordered c xs).hashedStrings ⊆ strings) :
    ∀ x ∈ xs, c.length x < 2 ^ 64 := by
  obtain ⟨htop, hbelow⟩ := List.cons_subset.mp hxs
  intro x hmem
  obtain ⟨index, hx⟩ := List.getElem?_of_mem hmem
  have hget : (ordered c xs).get? (nibbles (Codec.encodeNat index)) = some (c.encode x) := by
    rw [get?_ordered, hx]
    rfl
  rw [← hc.length_encode]
  exact shortValues_of_hashedBelow_subset hsize hbelow (hsize _ htop) _ _ hget

/-- An ordered root binds the list, as far as the hash function tells the hashed strings apart. -/
theorem eq_of_orderedRoot_eq {α : Type} {c : Codec α} (hc : c.Lawful) {xs ys : List α}
    (hfree : CollisionFree strings) (hsize : ∀ s ∈ strings, s.length < 2 ^ 64)
    (hxs : (ordered c xs).hashedStrings ⊆ strings) (hys : (ordered c ys).hashedStrings ⊆ strings)
    (h : orderedRoot c xs = orderedRoot c ys) : xs = ys :=
  eq_of_orderedRoot_eq_of_length_lt hc hfree (length_lt_of_hashedStrings_subset hc hsize hxs)
    (length_lt_of_hashedStrings_subset hc hsize hys) hxs hys h

end Trie

end Ethereum
