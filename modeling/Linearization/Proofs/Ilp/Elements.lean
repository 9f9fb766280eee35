import Linearization.Proofs.Ilp.Literals

/-!
# Exact selections

What a program that calls have built promises of the columns and rows for `array[index] = target`.

An earlier solution extends to them exactly if a guard is false in it, or its value of the index is a
position of the array and the item there has the value of the target (`Reaches.element_exact`). The
index may be constant, negative or beyond the end, the array may be empty, and index, items and
target may share columns.
-/

namespace Linearization.Ilp

open Lowering Literal

variable {p q : Ilp} {index target : Affine} {items : List Affine} {guards : List Literal}
  {position : Int} {u : Unit} {x : Assignment} {limit : Nat}

theorem isItemAt_iff : IsItemAt items target position x ↔
    0 ≤ position ∧ position < items.length ∧
      ∃ item, items[position.toNat]? = some item ∧ item.eval x = target.eval x := by
  unfold IsItemAt
  constructor
  · rintro ⟨item, hitem, heq⟩
    obtain ⟨hnonneg, hget⟩ := itemAt?_eq_some_iff.1 hitem
    obtain ⟨hlt, -⟩ := List.getElem?_eq_some_iff.1 hget
    exact ⟨hnonneg, by omega, item, hget, heq.symm⟩
  · rintro ⟨hnonneg, -, item, hget, heq⟩
    exact ⟨item, itemAt?_eq_some_iff.2 ⟨hnonneg, hget⟩, heq.symm⟩

theorem local_isItemAt_eval {n : Nat} (hindex : index.Below n) (hitems : ∀ e ∈ items, e.Below n)
    (htarget : target.Below n) : Local n fun x => IsItemAt items target (index.eval x) x := by
  intro x y hxy
  dsimp only
  rw [hindex.eval_congr hxy]
  exact local_isItemAt hitems htarget x y hxy

/-- In a program that calls have built, an earlier solution extends to the columns and rows of a
selection exactly if a guard is false in it, or the value of the index is a position of the array and
the item there has the value of the target. A false guard leaves every value of the index in place,
those outside of the array included. -/
theorem Reaches.element_exact (hp : (empty limit).Reaches p) (hindex : index.Below p.columns.size)
    (hitems : ∀ item ∈ items, item.Below p.columns.size) (htarget : target.Below p.columns.size)
    (hg : ∀ g ∈ guards, p.IsTruth g) (h : enforceElement index items target guards p = .ok u q)
    (hx : p.Solves x) :
    ((∃ y, AgreeBelow p.columns.size x y ∧ q.Solves y) ↔
      (∃ g ∈ guards, ¬ g.Holds x) ∨
        0 ≤ index.eval x ∧ index.eval x < items.length ∧
          ∃ item, items[(index.eval x).toNat]? = some item ∧ item.eval x = target.eval x) ∧
    ((∃ g ∈ guards, ¬ g.Holds x) →
      ∃ y, AgreeBelow p.columns.size x y ∧ q.Solves y ∧ index.eval y = index.eval x) := by
  have himposes :=
    imposes_of_enforceElement (hp.wellFormed (.empty limit)) hg hindex htarget hitems h
  have hiff := himposes.guarded_iff hg (local_isItemAt_eval hindex hitems htarget) hx
  refine ⟨by rw [hiff, isItemAt_iff], fun hfalse => ?_⟩
  obtain ⟨y, hxy, hy⟩ := hiff.2 (.inl hfalse)
  exact ⟨y, hxy, hy, (hindex.eval_congr hxy).symm⟩

/-- An index that may be negative or beyond the end, and that is an item and a part of the target as
well: with a false guard it may be negative, with a true one it may not be beyond the end. -/
theorem Reaches.element_exact_of_shared_columns :
    let p := (empty 4096).afterCalls [.newInt (-2) 4 "i", .newInt 0 5 "x", .newBool "b"]
    let i : Affine := .ofColumn 0
    let items : List Affine := [.ofColumn 1, i, .const 5]
    let negative : Assignment := fun c => if c = 0 then -2 else 0
    let beyond : Assignment := fun c => if c = 0 then 3 else 1
    p.Solves negative ∧ p.Solves beyond ∧
      ∃ u q, enforceElement i items (.ofColumn 1 + i) [.ofColumn 2] p = .ok u q ∧
        (∃ y, AgreeBelow p.columns.size negative y ∧ q.Solves y ∧ i.eval y = -2) ∧
        ¬ ∃ y, AgreeBelow p.columns.size beyond y ∧ q.Solves y := by
  intro p i items negative beyond
  have hp : (empty 4096).Reaches p := Reaches.refl.afterCalls _
  have hindex : i.Below p.columns.size := by decide
  have hitems : ∀ item ∈ items, item.Below p.columns.size := by decide
  have htarget : (Affine.ofColumn 1 + i).Below p.columns.size := by decide
  have hg : ∀ g ∈ [Literal.ofColumn 2], p.IsTruth g := by
    simp only [List.forall_mem_singleton]
    exact ⟨_, rfl, by decide, by decide⟩
  have hnegative : p.Solves negative := by decide
  have hbeyond : p.Solves beyond := by decide
  have hrun : succeedsWith (enforceElement i items (.ofColumn 1 + i) [.ofColumn 2]) p
      (fun _ _ => true) = true := by
    decide +kernel
  obtain ⟨u, q, h, -⟩ := exists_of_succeedsWith hrun
  refine ⟨hnegative, hbeyond, u, q, h, ?_, ?_⟩
  · exact (element_exact hp hindex hitems htarget hg h hnegative).2 (by decide)
  · rw [(element_exact hp hindex hitems htarget hg h hbeyond).1]
    rintro (hfalse | ⟨-, hlt, -⟩)
    · exact absurd hfalse (by decide)
    · exact absurd hlt (by decide)

end Linearization.Ilp
