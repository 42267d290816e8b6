import Ethereum.Proofs.Rlp.Scalar
import Ethereum.Proofs.Trie.Nibble
import Ethereum.Trie.Ordered

/-!
# What a trie holds

The trie of a list of entries looks every path up as the list itself does. `sharedPath` is a start
of every path of the list, so leaving it out loses nothing, and what is left is split by its next
nibble into the child entries and the value of the path that is at its end.

No two indices have the same path, so the trie of a list holds each item at its index, and nothing
behind the last one. Its values are short as soon as the items are.
-/

namespace Ethereum.Trie

variable {entries : List Entry} {child : Node}

/-! ## Shared starts -/

theorem commonStart_isPrefix_left (a b : List Nibble) : commonStart a b <+: a := by
  induction a generalizing b with
  | nil => exact List.nil_prefix
  | cons x a ih =>
    cases b with
    | nil => exact List.nil_prefix
    | cons y b =>
      rw [commonStart]
      split
      · exact (List.prefix_cons_inj x).mpr (ih b)
      · exact List.nil_prefix

theorem commonStart_isPrefix_right (a b : List Nibble) : commonStart a b <+: b := by
  induction a generalizing b with
  | nil => exact List.nil_prefix
  | cons x a ih =>
    cases b with
    | nil => exact List.nil_prefix
    | cons y b =>
      rw [commonStart]
      split
      · next h =>
        subst h
        exact (List.prefix_cons_inj x).mpr (ih b)
      · exact List.nil_prefix

/-- Cutting a path down to what it shares with each entry leaves a start of it, and of each of
them. -/
theorem foldl_commonStart_isPrefix (entries : List Entry) (path : List Nibble) :
    let shared := entries.foldl (fun shared entry => commonStart shared entry.1) path
    shared <+: path ∧ ∀ entry ∈ entries, shared <+: entry.1 := by
  induction entries generalizing path with
  | nil => exact ⟨List.prefix_refl path, by simp⟩
  | cons entry rest ih =>
    obtain ⟨hpath, hrest⟩ := ih (commonStart path entry.1)
    refine ⟨hpath.trans (commonStart_isPrefix_left path entry.1), ?_⟩
    intro other hmem
    rcases List.mem_cons.mp hmem with rfl | hmem
    · exact hpath.trans (commonStart_isPrefix_right path other.1)
    · exact hrest other hmem

theorem sharedPath_isPrefix {entry : Entry} (h : entry ∈ entries) :
    sharedPath entries <+: entry.1 := by
  cases entries with
  | nil => simp at h
  | cons first rest =>
    obtain ⟨hfirst, hrest⟩ := foldl_commonStart_isPrefix rest first.1
    rcases List.mem_cons.mp h with rfl | h
    · exact hfirst
    · exact hrest entry h

/-! ## Lookup in the parts -/

theorem lookup_cons_eq (path key : List Nibble) (value : Bytes) :
    ((path, value) :: entries).lookup key = if key = path then some value else entries.lookup key := by
  rw [List.lookup_cons]
  by_cases h : key = path
  · rw [if_pos h, beq_iff_eq.mpr h]
  · rw [if_neg h, beq_eq_false_iff_ne.mpr h]

/-- Without a start that all paths share, a list is looked up by what follows that start. -/
theorem lookup_dropNibbles {shared : List Nibble} (h : ∀ entry ∈ entries, shared <+: entry.1)
    (key : List Nibble) :
    (dropNibbles shared.length entries).lookup key = entries.lookup (shared ++ key) := by
  induction entries with
  | nil => rfl
  | cons entry rest ih =>
    obtain ⟨path, value⟩ := entry
    obtain ⟨after, rfl⟩ := h (path, value) List.mem_cons_self
    have hrest := ih fun other hmem => h other (List.mem_cons_of_mem _ hmem)
    have hdrop : dropNibbles shared.length ((shared ++ after, value) :: rest) =
        (after, value) :: dropNibbles shared.length rest := by simp [dropNibbles]
    rw [hdrop, lookup_cons_eq, lookup_cons_eq, hrest]
    simp only [List.append_cancel_left_eq]

/-- A path that does not begin as all paths of a list do is not among them. -/
theorem lookup_eq_none_of_not_isPrefix {shared key : List Nibble}
    (h : ∀ entry ∈ entries, shared <+: entry.1) (hkey : ¬ shared <+: key) :
    entries.lookup key = none := by
  refine List.lookup_eq_none_iff.mpr fun entry hmem => bne_iff_ne.mpr ?_
  rintro rfl
  exact hkey (h entry hmem)

/-- The child entries hold what goes on with their nibble. -/
theorem lookup_childEntries (next : Nibble) (entries : List Entry) (key : List Nibble) :
    (childEntries next entries).lookup key = entries.lookup (next :: key) := by
  induction entries with
  | nil => rfl
  | cons entry rest ih =>
    obtain ⟨path, value⟩ := entry
    rw [lookup_cons_eq, ← ih]
    cases path with
    | nil => rfl
    | cons nibble path =>
      by_cases h : nibble = next
      · subst h
        have hchild : childEntries nibble ((nibble :: path, value) :: rest) =
            (path, value) :: childEntries nibble rest := by simp [childEntries]
        rw [hchild, lookup_cons_eq]
        simp
      · have hchild : childEntries next ((nibble :: path, value) :: rest) =
            childEntries next rest := by simp [childEntries, h]
        rw [hchild, if_neg fun heq => h (List.cons.inj heq).1.symm]

/-- The value here is that of the path without nibbles. -/
theorem valueHere_eq_lookup (entries : List Entry) : valueHere entries = entries.lookup [] := by
  induction entries with
  | nil => rfl
  | cons entry rest ih =>
    obtain ⟨path, value⟩ := entry
    rw [lookup_cons_eq, ← ih]
    cases path <;> simp [valueHere]

/-! ## Lookup in the whole -/

/-- A branch of a list of entries looks up as the list does, if its children do. -/
theorem get?_branch (children : Nibble → Node)
    (h : ∀ next key, (children next).get? key = (childEntries next entries).lookup key)
    (key : List Nibble) :
    (Node.branch children (valueHere entries)).get? key = entries.lookup key := by
  cases key with
  | nil => exact valueHere_eq_lookup entries
  | cons nibble key => exact (h nibble key).trans (lookup_childEntries nibble entries key)

/-- An extension of what all paths of a list share looks up as the list does, if its child looks up
what follows. -/
theorem get?_extension {shared : List Nibble} {child : Node}
    (hshared : ∀ entry ∈ entries, shared <+: entry.1)
    (h : ∀ key, child.get? key = (dropNibbles shared.length entries).lookup key)
    (key : List Nibble) : (Node.extension shared child).get? key = entries.lookup key := by
  rw [Node.get?]
  split
  · next hprefix =>
    obtain ⟨after, rfl⟩ := List.isPrefixOf_iff_prefix.mp hprefix
    rw [List.drop_left, h, lookup_dropNibbles hshared]
  · next hprefix =>
    have hkey : ¬ shared <+: key := fun h => hprefix (List.isPrefixOf_iff_prefix.mpr h)
    exact (lookup_eq_none_of_not_isPrefix hshared hkey).symm

/-- The trie of a list of entries holds what the list does. -/
theorem get?_ofEntries (entries : List Entry) (key : List Nibble) :
    (Node.ofEntries entries).get? key = entries.lookup key := by
  -- along the recursion of `ofEntries`, which has a hypothesis for the entries of every child
  induction entries using Node.ofEntries.induct generalizing key with
  | case1 =>
    rw [Node.ofEntries]
    rfl
  | case2 path value =>
    rw [Node.ofEntries, lookup_cons_eq]
    rfl
  | case3 first second rest shared below hempty ih =>
    -- nothing is shared, so the fork is over the entries themselves
    have hfork := get?_branch (fun next => .ofEntries (childEntries next below)) ih key
    have hshared : shared = [] := List.isEmpty_iff.mp hempty
    have hbelow : below = first :: second :: rest := by simp [below, dropNibbles, hshared]
    rw [Node.ofEntries, if_pos hempty]
    exact hfork.trans (by rw [hbelow])
  | case4 first second rest shared below hempty ih =>
    have hfork := get?_branch (fun next => .ofEntries (childEntries next below)) ih
    rw [Node.ofEntries, if_neg hempty]
    exact get?_extension (fun _ hmem => sharedPath_isPrefix hmem) hfork key

/-! ## Lists -/

/-- An index is looked up in the entries of a list as in the list. -/
theorem lookup_orderedEntries {α : Type} (c : Rlp.Codec α) (items : List α) (index : Nat) :
    (orderedEntries c items).lookup (nibbles (Rlp.Codec.encodeNat index)) =
      items[index]?.map c.encode := by
  -- the indices of the rest start one later, so the claim is for every start
  have hfrom : ∀ start, ((items.zipIdx start).map fun entry =>
      (nibbles (Rlp.Codec.encodeNat entry.2), c.encode entry.1)).lookup
        (nibbles (Rlp.Codec.encodeNat (start + index))) = items[index]?.map c.encode := by
    induction items generalizing index with
    | nil => simp
    | cons item rest ih =>
      intro start
      rw [List.zipIdx_cons, List.map_cons, lookup_cons_eq]
      cases index with
      | zero => simp
      | succ index =>
        have hne : nibbles (Rlp.Codec.encodeNat (start + (index + 1))) ≠
            nibbles (Rlp.Codec.encodeNat start) := by
          intro heq
          have hindex := Rlp.Codec.encodeNat_inj (nibbles_inj heq)
          omega
        have hrest := ih index (start + 1)
        rw [if_neg hne, List.getElem?_cons_succ, ← hrest, Nat.add_assoc, Nat.add_comm 1]
  have hzero := hfrom 0
  rw [Nat.zero_add] at hzero
  exact hzero

/-- The trie of a list holds each item at its index. -/
theorem get?_ordered {α : Type} (c : Rlp.Codec α) (items : List α) (index : Nat) :
    (ordered c items).get? (nibbles (Rlp.Codec.encodeNat index)) = items[index]?.map c.encode := by
  rw [ordered, get?_ofEntries, lookup_orderedEntries]

/-! ## Short values -/

/-- Whether every value in a trie has a length of 64 bits. -/
def Node.ShortValues (node : Node) : Prop :=
  ∀ (key : List Nibble) (value : Bytes), node.get? key = some value → value.length < 2 ^ 64

theorem Node.ShortValues.of_extension {path : List Nibble}
    (h : (Node.extension path child).ShortValues) : child.ShortValues := by
  intro key value hvalue
  have hprefix : path.isPrefixOf (path ++ key) = true :=
    List.isPrefixOf_iff_prefix.mpr (List.prefix_append path key)
  have hget : (Node.extension path child).get? (path ++ key) = child.get? key := by
    rw [Node.get?, if_pos hprefix, List.drop_left]
  exact h (path ++ key) value (hget.trans hvalue)

theorem Node.ShortValues.of_branch {children : Nibble → Node} {value : Option Bytes}
    (h : (Node.branch children value).ShortValues) (next : Nibble) :
    (children next).ShortValues := fun key => h (next :: key)

/-- The trie of a list holds encodings of its items only. -/
theorem shortValues_ordered {α : Type} {c : Rlp.Codec α} (hc : c.Lawful) {items : List α}
    (h : ∀ item ∈ items, c.length item < 2 ^ 64) : (ordered c items).ShortValues := by
  intro key value hvalue
  rw [ordered, get?_ofEntries] at hvalue
  obtain ⟨before, after, hentries, -⟩ := List.lookup_eq_some_iff.mp hvalue
  have hmem : (key, value) ∈ orderedEntries c items := by simp [hentries]
  obtain ⟨⟨item, index⟩, hitem, hentry⟩ := List.mem_map.mp hmem
  obtain ⟨-, rfl⟩ := Prod.mk.inj hentry
  rw [hc.length_encode]
  exact h item (List.fst_mem_of_mem_zipIdx hitem)

end Ethereum.Trie
