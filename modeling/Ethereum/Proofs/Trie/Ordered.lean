import Ethereum.Keccak
import Ethereum.Proofs.Rlp.Shape
import Ethereum.Proofs.Trie.Binding

/-!
# An ordered root binds its list

Two lists of one type with the same ordered root are the same list. The hash function has to tell
apart the strings that are hashed for the two roots, and no others; the lists may have any lengths,
so that their indices need not have the same number of bytes.
-/

namespace Ethereum.Trie

open Rlp

/-- An ordered root binds the list, for items of every type without blocks: nothing can be moved,
left out, repeated, appended or altered without another root, unless two of the strings hashed for
the two roots collide. -/
theorem eq_of_orderedRoot_eq_of_collisionFree [HashFunction] (shape : Shape)
    (hshape : shape.isBlockFree) (xs ys : List shape.Value)
    (hlen : ∀ item ∈ xs ++ ys, (shape.codec.encode item).length < 2 ^ 64)
    (hfree : CollisionFree
      ((ordered shape.codec xs).hashedStrings ++ (ordered shape.codec ys).hashedStrings))
    (h : orderedRoot shape.codec xs = orderedRoot shape.codec ys) : xs = ys := by
  have hlawful := Shape.codec_lawful hshape
  have hlength : ∀ item ∈ xs ++ ys, shape.codec.length item < 2 ^ 64 := by
    intro item hmem
    rw [← hlawful.length_encode]
    exact hlen item hmem
  exact eq_of_orderedRoot_eq_of_length_lt hlawful hfree
    (fun x hx => hlength x (List.mem_append_left _ hx))
    (fun y hy => hlength y (List.mem_append_right _ hy))
    (List.subset_append_left _ _) (List.subset_append_right _ _) h

/-- Two transactions, of which one is too long to stand in its parent as it is, have another root
in the other order. -/
theorem eq_of_orderedRoot_eq_of_collisionFree_swap :
    let xs : List Transaction := [{ nonce := 1, input := List.replicate 40 0 }, { nonce := 2 }]
    (∀ tx ∈ xs ++ xs.reverse, (Transaction.codec.encode tx).length < 2 ^ 64) ∧
      CollisionFree ((ordered Transaction.codec xs).hashedStrings ++
        (ordered Transaction.codec xs.reverse).hashedStrings) ∧
      orderedRoot Transaction.codec xs ≠ orderedRoot Transaction.codec xs.reverse := by
  intro xs
  have hlen : ∀ tx ∈ xs ++ xs.reverse, (Transaction.codec.encode tx).length < 2 ^ 64 := by
    decide +kernel
  have hnodup : (((ordered Transaction.codec xs).hashedStrings ++
      (ordered Transaction.codec xs.reverse).hashedStrings).map digest).Nodup := by
    decide +kernel
  have hfree := collisionFree_of_nodup hnodup
  refine ⟨hlen, hfree, fun h => ?_⟩
  have heq : xs = xs.reverse :=
    eq_of_orderedRoot_eq_of_collisionFree .transaction rfl xs xs.reverse hlen hfree h
  exact absurd heq (by decide)

end Ethereum.Trie
