import Mathlib.Data.List.Forall2
import Mathlib.Order.Basic

/-!
# Matchings

What belongs together in two runs is recorded as pairs of which no two share a side. A matching only
ever gets larger, by pairs of items that had no partner yet (`Matching.insert`).

Two optional items meet in a matching if it pairs them with each other or not at all (`Meets`). An
item that appears later on one side takes the partner that waits for it on the other
(`Meets.appear`).
-/

namespace Linearization

/-- Pairs of items, no two of which share a side. -/
structure Matching (α : Type) where
  Pairs : α → α → Prop
  unique_left : ∀ {a b c}, Pairs a c → Pairs b c → a = b
  unique_right : ∀ {a b c}, Pairs a b → Pairs a c → b = c

namespace Matching

variable {α : Type} {M N : Matching α} {a b c d : α} {o o' : Option α}

/-- More pairs are more. -/
instance : Preorder (Matching α) := Preorder.lift Pairs

/-- Everything with the property is paired with itself. -/
def identity (P : α → Prop) : Matching α where
  Pairs a b := a = b ∧ P a
  unique_left h h' := h.1.trans h'.1.symm
  unique_right h h' := h.1.symm.trans h'.1

/-- The same pairs with the sides exchanged. -/
def flip (M : Matching α) : Matching α where
  Pairs a b := M.Pairs b a
  unique_left h h' := M.unique_right h h'
  unique_right h h' := M.unique_left h h'

theorem flip_mono (h : M ≤ N) : M.flip ≤ N.flip := fun a b hab => h b a hab

/-- The item has no partner on the right. -/
def FreeLeft (M : Matching α) (a : α) : Prop := ∀ b, ¬ M.Pairs a b

/-- The item has no partner on the left. -/
def FreeRight (M : Matching α) (b : α) : Prop := ∀ a, ¬ M.Pairs a b

/-- One more pair, of items without a partner. -/
def insert (M : Matching α) (a b : α) (ha : M.FreeLeft a) (hb : M.FreeRight b) : Matching α where
  Pairs c d := M.Pairs c d ∨ c = a ∧ d = b
  unique_left := by
    rintro c d e (h | ⟨rfl, rfl⟩) (h' | ⟨rfl, h'⟩)
    · exact M.unique_left h h'
    · exact (hb c (h' ▸ h)).elim
    · exact (hb d h').elim
    · rfl
  unique_right := by
    rintro c d e (h | ⟨rfl, rfl⟩) (h' | ⟨h', rfl⟩)
    · exact M.unique_right h h'
    · exact (ha d (h' ▸ h)).elim
    · exact (ha e h').elim
    · rfl

theorem le_insert (ha : M.FreeLeft a) (hb : M.FreeRight b) : M ≤ M.insert a b ha hb :=
  fun _ _ h => .inl h

theorem pairs_insert (ha : M.FreeLeft a) (hb : M.FreeRight b) : (M.insert a b ha hb).Pairs a b :=
  .inr ⟨rfl, rfl⟩

/-! ## Optional items -/

/-- The items are partners if both are there; one that is there alone has no partner. -/
def Meets (M : Matching α) (o o' : Option α) : Prop :=
  ∀ a b, (o = some a → (M.Pairs a b ↔ o' = some b)) ∧ (o' = some b → (M.Pairs a b ↔ o = some a))

namespace Meets

theorem pairs (h : M.Meets (some a) (some b)) : M.Pairs a b := ((h a b).1 rfl).2 rfl

theorem freeRight (h : M.Meets none (some b)) : M.FreeRight b := fun a hab => by
  cases ((h a b).2 rfl).1 hab

theorem flip (h : M.Meets o o') : M.flip.Meets o' o := fun a b => (h b a).symm

theorem of_none : M.Meets none none := fun _ _ => ⟨nofun, nofun⟩

theorem of_pairs (h : M.Pairs a b) : M.Meets (some a) (some b) := by
  refine fun c d =>
    ⟨fun hc => ⟨fun hcd => ?_, fun hd => ?_⟩, fun hd => ⟨fun hcd => ?_, fun hc => ?_⟩⟩
  · cases hc
    rw [M.unique_right h hcd]
  · cases hc
    cases hd
    exact h
  · cases hd
    rw [M.unique_left h hcd]
  · cases hc
    cases hd
    exact h

theorem of_freeLeft (h : M.FreeLeft a) : M.Meets (some a) none := by
  refine fun c d => ⟨fun hc => ⟨fun hcd => ?_, nofun⟩, nofun⟩
  cases hc
  exact (h d hcd).elim

theorem insert (h : M.Meets o o') {ha : M.FreeLeft a} {hb : M.FreeRight b} (hoa : o ≠ some a)
    (hob : o' ≠ some b) : (M.insert a b ha hb).Meets o o' := by
  refine fun c d => ⟨fun hc => ⟨fun hcd => ?_, fun hd => .inl (((h c d).1 hc).2 hd)⟩,
    fun hd => ⟨fun hcd => ?_, fun hc => .inl (((h c d).2 hd).2 hc)⟩⟩
  · rcases hcd with hcd | ⟨rfl, rfl⟩
    · exact ((h c d).1 hc).1 hcd
    · exact (hoa hc).elim
  · rcases hcd with hcd | ⟨rfl, rfl⟩
    · exact ((h c d).2 hd).1 hcd
    · exact (hob hd).elim

/-- An item appears on the left. If one waits for it on the right, they become partners; what meets
elsewhere keeps meeting, and no other item gets a partner. -/
theorem appear (h : M.Meets none o') (ha : M.FreeLeft a) :
    ∃ N, M ≤ N ∧ N.Meets (some a) o' ∧
      (∀ c d, N.Pairs c d → M.Pairs c d ∨ c = a ∧ o' = some d) ∧
      ∀ p p', M.Meets p p' → p ≠ some a → (p' ≠ o' ∨ p' = none) → N.Meets p p' := by
  cases o' with
  | none => exact ⟨M, le_refl M, of_freeLeft ha, fun c d => .inl, fun p p' hp _ _ => hp⟩
  | some b =>
    have hb := h.freeRight
    refine ⟨M.insert a b ha hb, le_insert ha hb, of_pairs (pairs_insert ha hb),
      fun c d hcd => hcd.imp_right fun ⟨hc, hd⟩ => ⟨hc, hd ▸ rfl⟩, fun p p' hp hpa hpb => ?_⟩
    refine hp.insert hpa ?_
    rcases hpb with hpb | rfl
    · exact hpb
    · exact nofun

end Meets

end Matching

end Linearization
