import Ethereum.Block.Order
import Mathlib.Data.List.Basic

/-!
# Sorted blocks

A comparison is one of a total preorder when it turns around with its arguments and "not greater"
is transitive, which is what `Std.TransCmp` says. The sort by such a comparison is pinned down by
three properties of its result: it has the items that it was given, no item compares greater than
the next one, and items that compare equal stand in the order in which they came. For the last one,
`ties` takes out the items that compare equal to a block: these are the same list before and after.

Two lists with these properties are the same, since the first items of both are ties of each other,
and the ties of one block have only one order. Whatever sorts in another way, such as twice or in
two passes, gives the same list as soon as it has the three properties.

## Main statements

* `isSortOf_sortOn`, `IsSortOf.eq` — the result of the sort has the properties, and no other list.
* `sortOn_sortOn` — two passes are one pass by the lexicographic combination.
* `sortOn_unique_and_composes` — all together, and the comparison by number.
-/

namespace Ethereum.Block

section
variable {α : Type} {block : α → Block} {cmp primary secondary : Block → Block → Ordering}
  {items sorted xs ys : List α} {x y : α} {a b : Block}

/-- Whether an item may stand in front of another one: it does not compare greater. -/
def MayPrecede (block : α → Block) (cmp : Block → Block → Ordering) (x y : α) : Prop :=
  cmp (block x) (block y) ≠ .gt

instance : DecidableRel (MayPrecede block cmp) := fun _ _ => inferInstanceAs (Decidable (_ ≠ _))

/-- The items that compare equal to a block, in the order in which they stand. -/
def ties (block : α → Block) (cmp : Block → Block → Ordering) (b : Block) (items : List α) :
    List α :=
  items.filter fun item => cmp b (block item) = .eq

/-- Whether a list is the stable sort of the items. -/
structure IsSortOf (block : α → Block) (cmp : Block → Block → Ordering) (items sorted : List α) :
    Prop where
  /-- Nothing is lost and nothing comes twice. -/
  perm : sorted.Perm items
  /-- No item compares greater than the next one. -/
  ordered : sorted.IsChain (MayPrecede block cmp)
  /-- Items that compare equal keep their order. -/
  stable (b : Block) : ties block cmp b sorted = ties block cmp b items

/-! ## Ties -/

theorem mem_ties_iff : x ∈ ties block cmp b items ↔ x ∈ items ∧ cmp b (block x) = .eq := by
  simp [ties]

theorem ties_cons_of_eq (h : cmp b (block x) = .eq) (items : List α) :
    ties block cmp b (x :: items) = x :: ties block cmp b items :=
  List.filter_cons_of_pos (by simpa using h)

theorem ties_cons_of_ne (h : cmp b (block x) ≠ .eq) (items : List α) :
    ties block cmp b (x :: items) = ties block cmp b items :=
  List.filter_cons_of_neg (by simpa using h)

/-- Neighbours can change places if no block is a tie of both. -/
theorem ties_swap (h : cmp b (block x) = .eq → cmp b (block y) ≠ .eq) (items : List α) :
    ties block cmp b (x :: y :: items) = ties block cmp b (y :: x :: items) := by
  by_cases hx : cmp b (block x) = .eq
  · rw [ties_cons_of_eq hx, ties_cons_of_ne (h hx), ties_cons_of_ne (h hx), ties_cons_of_eq hx]
  · rw [ties_cons_of_ne hx]
    by_cases hy : cmp b (block y) = .eq
    · rw [ties_cons_of_eq hy, ties_cons_of_eq hy, ties_cons_of_ne hx]
    · rw [ties_cons_of_ne hy, ties_cons_of_ne hy, ties_cons_of_ne hx]

/-- Ties under a lexicographic combination are ties of ties. -/
theorem ties_compareLex (b : Block) (items : List α) :
    ties block (compareLex primary secondary) b items =
      ties block secondary b (ties block primary b items) := by
  rw [ties, ties, ties, List.filter_filter]
  refine List.filter_congr fun item _ => ?_
  simp only [compareLex, Ordering.then_eq_eq, Bool.decide_and, Bool.and_comm]

/-- Ties by two comparisons can be taken out in either order. -/
theorem ties_ties_comm (b : Block) (items : List α) :
    ties block primary b (ties block secondary b items) =
      ties block secondary b (ties block primary b items) := by
  rw [ties, ties, ties, ties, List.filter_filter, List.filter_filter]
  exact List.filter_congr fun item _ => Bool.and_comm _ _

/-- Items that compare equal to a block keep their order among all items that do. -/
theorem sublist_ties_of_sublist (hsub : xs.Sublist items)
    (hties : ∀ x ∈ xs, cmp b (block x) = .eq) : xs.Sublist (ties block cmp b items) := by
  have hself : ties block cmp b xs = xs :=
    List.filter_eq_self.mpr fun x hx => by simpa using hties x hx
  have hfilter : (ties block cmp b xs).Sublist (ties block cmp b items) := hsub.filter _
  rwa [hself] at hfilter

/-! ## One order only -/

section
variable [Std.TransCmp cmp]

instance : Trans (MayPrecede block cmp) (MayPrecede block cmp) (MayPrecede block cmp) where
  trans hxy hyz := Ordering.isLE_iff_ne_gt.mp <| Std.TransCmp.isLE_trans
    (Ordering.isLE_iff_ne_gt.mpr hxy) (Ordering.isLE_iff_ne_gt.mpr hyz)

theorem cmp_self (b : Block) : cmp b b = .eq := Std.ReflCmp.compare_self

theorem mayPrecede_self (x : α) : MayPrecede block cmp x x := by
  have hself : cmp (block x) (block x) = .eq := cmp_self _
  rw [MayPrecede, hself]
  exact nofun

/-- Two items that may stand in either order compare equal. -/
theorem eq_of_mayPrecede (hxy : MayPrecede block cmp x y) (hyx : MayPrecede block cmp y x) :
    cmp (block x) (block y) = .eq := by
  have hswap : cmp (block y) (block x) = (cmp (block x) (block y)).swap := Std.OrientedCmp.eq_swap
  rw [MayPrecede, hswap] at hyx
  rw [MayPrecede] at hxy
  cases hcmp : cmp (block x) (block y) with
  | lt => exact absurd (by rw [hcmp]; rfl) hyx
  | eq => rfl
  | gt => exact absurd hcmp hxy

/-- The first item of an ordered list may stand in front of every item of a list with the same
ties. -/
theorem mayPrecede_of_ties_eq (hxs : (x :: xs).Pairwise (MayPrecede block cmp))
    (hties : ∀ b, ties block cmp b (x :: xs) = ties block cmp b ys) (hy : y ∈ ys) :
    MayPrecede block cmp x y := by
  have hmem : y ∈ ties block cmp (block y) ys := mem_ties_iff.mpr ⟨hy, cmp_self _⟩
  rw [← hties, mem_ties_iff] at hmem
  rcases List.mem_cons.mp hmem.1 with rfl | htail
  · exact mayPrecede_self y
  · exact List.rel_of_pairwise_cons hxs htail

/-- Two ordered lists with the same ties are the same. -/
theorem eq_of_ties_eq (hxs : xs.Pairwise (MayPrecede block cmp))
    (hys : ys.Pairwise (MayPrecede block cmp))
    (hties : ∀ b, ties block cmp b xs = ties block cmp b ys) : xs = ys := by
  have hself : ∀ (z : α) (zs : List α),
      ties block cmp (block z) (z :: zs) = z :: ties block cmp (block z) zs :=
    fun z zs => ties_cons_of_eq (cmp_self _) zs
  induction xs generalizing ys with
  | nil =>
    cases ys with
    | nil => rfl
    | cons y ys => exact absurd ((hties (block y)).trans (hself y ys)) nofun
  | cons x xs ih =>
    cases ys with
    | nil => exact absurd ((hties (block x)).symm.trans (hself x xs)) nofun
    | cons y ys =>
      -- each first item may stand in front of the other one, so they are ties of each other
      have hxy : cmp (block x) (block y) = .eq :=
        eq_of_mayPrecede (mayPrecede_of_ties_eq hxs hties List.mem_cons_self)
          (mayPrecede_of_ties_eq hys (fun b => (hties b).symm) List.mem_cons_self)
      have hfirst := hties (block x)
      rw [hself, ties_cons_of_eq hxy] at hfirst
      obtain rfl : x = y := (List.cons.inj hfirst).1
      refine congrArg (x :: ·) (ih hxs.of_cons hys.of_cons fun b => ?_)
      have hrest := hties b
      by_cases hb : cmp b (block x) = .eq
      · rw [ties_cons_of_eq hb, ties_cons_of_eq hb] at hrest
        exact (List.cons.inj hrest).2
      · rwa [ties_cons_of_ne hb, ties_cons_of_ne hb] at hrest

/-- Items have one stable sort. -/
theorem IsSortOf.eq (hxs : IsSortOf block cmp items xs) (hys : IsSortOf block cmp items ys) :
    xs = ys :=
  eq_of_ties_eq hxs.ordered.pairwise hys.ordered.pairwise
    fun b => (hxs.stable b).trans (hys.stable b).symm

/-! ## The sort -/

theorem isLE_total (a b : Block) : (cmp a b).isLE || (cmp b a).isLE := by
  have hswap : cmp b a = (cmp a b).swap := Std.OrientedCmp.eq_swap
  rw [hswap]
  cases cmp a b <;> rfl

theorem pairwise_sortOn (items : List α) :
    (sortOn block cmp items).Pairwise (MayPrecede block cmp) := by
  have hsorted : (sortOn block cmp items).Pairwise
      fun x y => (cmp (block x) (block y)).isLE = true :=
    List.pairwise_mergeSort (fun _ _ _ => Std.TransCmp.isLE_trans) (fun _ _ => isLE_total _ _) items
  exact hsorted.imp fun hle => Ordering.isLE_iff_ne_gt.mp hle

/-- The sort leaves ties as they are. -/
theorem ties_sortOn (b : Block) (items : List α) :
    ties block cmp b (sortOn block cmp items) = ties block cmp b items := by
  have hperm : (sortOn block cmp items).Perm items := List.mergeSort_perm _ _
  -- the ties are in order already, and the sort keeps what is in order
  have hordered : (ties block cmp b items).Pairwise
      fun x y => (cmp (block x) (block y)).isLE = true := by
    refine List.pairwise_of_forall_mem_list fun x hx y hy => ?_
    have hxy : cmp b (block y) = cmp (block x) (block y) :=
      Std.TransCmp.congr_left (mem_ties_iff.mp hx).2
    rw [← hxy, (mem_ties_iff.mp hy).2]
    rfl
  have hkept : (ties block cmp b items).Sublist (sortOn block cmp items) :=
    List.sublist_mergeSort (fun _ _ _ => Std.TransCmp.isLE_trans) (fun _ _ => isLE_total _ _)
      hordered List.filter_sublist
  have hsub := sublist_ties_of_sublist hkept fun x hx => (mem_ties_iff.mp hx).2
  have hlength : (ties block cmp b (sortOn block cmp items)).length =
      (ties block cmp b items).length := (hperm.filter _).length_eq
  exact (hsub.eq_of_length hlength.symm).symm

/-- The sort is a stable sort. -/
theorem isSortOf_sortOn (items : List α) : IsSortOf block cmp items (sortOn block cmp items) where
  perm := List.mergeSort_perm _ _
  ordered := (pairwise_sortOn items).isChain
  stable b := ties_sortOn b items

/-- A list is the result of the sort exactly when it has the three properties. -/
theorem isSortOf_iff : IsSortOf block cmp items sorted ↔ sorted = sortOn block cmp items := by
  constructor
  · intro h
    exact h.eq (isSortOf_sortOn items)
  · rintro rfl
    exact isSortOf_sortOn items

omit [Std.TransCmp cmp] in
/-- Items that hold blocks are sorted as the blocks are. -/
theorem map_sortOn (items : List α) :
    (sortOn block cmp items).map block = sort cmp (items.map block) :=
  List.map_mergeSort fun _ _ _ _ => rfl

/-- What is sorted stays as it is. -/
theorem sortOn_self (items : List α) :
    sortOn block cmp (sortOn block cmp items) = sortOn block cmp items := by
  have hsorted : IsSortOf block cmp (sortOn block cmp items) (sortOn block cmp items) :=
    ⟨.refl _, (pairwise_sortOn items).isChain, fun _ => rfl⟩
  exact (isSortOf_iff.mp hsorted).symm

end

/-! ## Two passes -/

section
variable [Std.TransCmp primary] [Std.TransCmp secondary]

omit [Std.TransCmp secondary] in
/-- A pass by the primary comparison over what is in order under the secondary one leaves the items
in order under both. -/
theorem pairwise_sortOn_compareLex (h : items.Pairwise (MayPrecede block secondary)) :
    (sortOn block primary items).Pairwise (MayPrecede block (compareLex primary secondary)) := by
  rw [List.pairwise_iff_forall_sublist]
  intro x y hsub
  have hprimary := List.pairwise_iff_forall_sublist.mp (pairwise_sortOn items) hsub
  rw [MayPrecede, compareLex]
  cases hcmp : primary (block x) (block y) with
  | lt => exact nofun
  | gt => exact absurd hcmp hprimary
  | eq =>
    -- ties of the primary comparison stand as they did before the pass
    have hties : [x, y].Sublist (ties block primary (block x) (sortOn block primary items)) := by
      refine sublist_ties_of_sublist hsub fun z hz => ?_
      rcases List.mem_pair.mp hz with rfl | rfl
      · exact cmp_self _
      · exact hcmp
    rw [ties_sortOn] at hties
    exact List.pairwise_iff_forall_sublist.mp h (hties.trans List.filter_sublist)

/-- A pass by the secondary comparison and then one by the primary comparison are a sort by their
lexicographic combination. -/
theorem sortOn_sortOn (items : List α) :
    sortOn block primary (sortOn block secondary items) =
      sortOn block (compareLex primary secondary) items := by
  refine isSortOf_iff.mp ⟨?_, ?_, fun b => ?_⟩
  · exact (List.mergeSort_perm _ _).trans (List.mergeSort_perm _ _)
  · exact (pairwise_sortOn_compareLex (pairwise_sortOn items)).isChain
  · calc ties block (compareLex primary secondary) b
          (sortOn block primary (sortOn block secondary items))
        = ties block secondary b (ties block primary b (sortOn block secondary items)) := by
          rw [ties_compareLex, ties_sortOn]
      _ = ties block primary b (ties block secondary b items) := by
          rw [ties_ties_comm, ties_sortOn]
      _ = ties block (compareLex primary secondary) b items := by
          rw [ties_ties_comm, ties_compareLex]

end

/-! ## Numbers -/

instance : Std.TransCmp byNumber :=
  inferInstanceAs (Std.TransCmp (compareOn fun block : Block => block.header.number.toNat))

theorem byNumber_eq_eq_iff : byNumber a b = .eq ↔ a.header.number = b.header.number := by
  rw [byNumber, Nat.compare_eq_eq, BitVec.toNat_inj]

theorem byNumber_eq_lt_iff : byNumber a b = .lt ↔ a.header.number < b.header.number := by
  rw [byNumber, Nat.compare_eq_lt, BitVec.lt_def]

end

/-- The sort loses nothing, repeats nothing and misplaces nothing. For every comparison of a total
preorder, the result of the sort is the one list that has the items that were given, no item that
compares greater than the next one, and ties in the order in which they came. So items that hold
blocks are sorted as the blocks are, a second sort changes nothing, and a pass by a secondary
comparison in front of one by the primary comparison makes them a sort by the lexicographic
combination. The comparison by number is one of these, over all 256 bits of a number: it tells
blocks apart exactly by their numbers. -/
theorem sortOn_unique_and_composes {α : Type} (block : α → Block)
    (cmp : Block → Block → Ordering) [Std.TransCmp cmp] (items : List α) :
    (∀ sorted, IsSortOf block cmp items sorted ↔ sorted = sortOn block cmp items) ∧
    (sortOn block cmp items).map block = sort cmp (items.map block) ∧
    sortOn block cmp (sortOn block cmp items) = sortOn block cmp items ∧
    (∀ (secondary : Block → Block → Ordering) [Std.TransCmp secondary],
      sortOn block cmp (sortOn block secondary items) =
        sortOn block (compareLex cmp secondary) items) ∧
    Std.TransCmp byNumber ∧
    ∀ a b : Block, (byNumber a b = .eq ↔ a.header.number = b.header.number) ∧
      (byNumber a b = .lt ↔ a.header.number < b.header.number) :=
  ⟨fun _ => isSortOf_iff, map_sortOn items, sortOn_self items, fun _ => sortOn_sortOn items,
    inferInstance, fun _ _ => ⟨byNumber_eq_eq_iff, byNumber_eq_lt_iff⟩⟩

/-- Three blocks with numbers around `2 ^ 64`, which integers of 64 bits would not tell apart: the
two with the larger number stay in the order in which they came, and times decide between them
where the blocks were sorted by time before. -/
theorem sortOn_unique_and_composes_wideNumbers :
    let low : Block := { header := { number := 0xffffffffffffffff, timestamp := 3 } }
    let late : Block := { header := { number := 0x10000000000000000, timestamp := 2 } }
    let early : Block := { header := { number := 0x10000000000000000, timestamp := 1 } }
    let byTime : Block → Block → Ordering := compareOn fun block => block.header.timestamp.toNat
    low.numberUInt64 = late.numberUInt64 ∧ Std.TransCmp byNumber ∧ Std.TransCmp byTime ∧
      sort byNumber [late, low, early] = [low, late, early] ∧
      sort byNumber (sort byTime [late, low, early]) =
        sort (compareLex byNumber byTime) [late, low, early] := by
  intro low late early byTime
  have htime : Std.TransCmp byTime :=
    inferInstanceAs (Std.TransCmp (compareOn fun block : Block => block.header.timestamp.toNat))
  obtain ⟨hunique, -, -, htwice, hnumber, hiff⟩ :=
    sortOn_unique_and_composes id byNumber [late, low, early]
  have hsaturated : low.numberUInt64 = late.numberUInt64 := by decide +kernel
  have hlow : low.header.number ≠ late.header.number := by decide +kernel
  have hordered : [low, late, early].IsChain (MayPrecede id byNumber) := by decide +kernel
  -- nothing else is needed of the three blocks
  clear_value low late early
  have hties : ∀ b : Block, byNumber b low = .eq → byNumber b late ≠ .eq := by
    intro b hb hlate
    rw [(hiff b low).1] at hb
    rw [(hiff b late).1] at hlate
    exact hlow (hb.symm.trans hlate)
  have hsorted : IsSortOf id byNumber [late, low, early] [low, late, early] :=
    ⟨List.Perm.swap _ _ _, hordered, fun b => ties_swap (hties b) [early]⟩
  have hsort : [low, late, early] = sort byNumber [late, low, early] := (hunique _).mp hsorted
  exact ⟨hsaturated, hnumber, htime, hsort.symm, htwice byTime⟩

end Ethereum.Block
