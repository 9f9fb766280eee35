import Linearization.Proofs.Affine
import Linearization.Proofs.Expr.Frame
import Linearization.Translation.Layout

/-!
# Values read back through a layout

`Layout.valuation` gives every registered variable the value of its column. A layout that has grown
reads the same values back for the variables that were registered before (`Grows.valuation`).
-/

namespace Linearization

namespace Layout

variable {r s u : Layout} {v w : Var} {image : Image} {x y : Assignment} {e : Expr}

/-- The variable has an image. -/
def Has (r : Layout) (v : Var) : Prop := (r.get? v).isSome

instance (r : Layout) (v : Var) : Decidable (r.Has v) := inferInstanceAs (Decidable (_ = true))

theorem get?_congr (h : v.toVarKey = w.toVarKey) : r.get? v = r.get? w := by
  unfold get?
  rw [h]

theorem has_congr (h : v.toVarKey = w.toVarKey) : r.Has v ↔ r.Has w := by
  unfold Has
  rw [get?_congr h]

theorem get?_insert : (r.insert v image).get? w =
    if v.toVarKey = w.toVarKey then some image else r.get? w := by
  unfold get? insert
  rw [List.find?_cons]
  by_cases h : v.toVarKey = w.toVarKey <;> simp [h]

theorem has_insert : (r.insert v image).Has w ↔ v.toVarKey = w.toVarKey ∨ r.Has w := by
  unfold Has
  rw [get?_insert]
  by_cases h : v.toVarKey = w.toVarKey <;> simp [h]

/-- The values that the variables have under an assignment of the columns; a variable that is not
registered has the value zero. -/
def valuation (r : Layout) (x : Assignment) : Valuation := fun k =>
  match r.get? ⟨k, ""⟩ with
  | some image => x image.column
  | none => 0

theorem valuation_of_get? (h : r.get? v = some image) :
    r.valuation x v.toVarKey = x image.column := by
  have hkey : r.get? ⟨v.toVarKey, ""⟩ = some image := h
  unfold valuation
  rw [hkey]

theorem valuation_of_not_has (h : ¬ r.Has v) : r.valuation x v.toVarKey = 0 := by
  have hkey : r.get? ⟨v.toVarKey, ""⟩ = none := Option.not_isSome_iff_eq_none.1 h
  unfold valuation
  rw [hkey]

/-! ## Growth -/

/-- Every registered variable keeps its image. -/
def Grows (r s : Layout) : Prop := ∀ v image, r.get? v = some image → s.get? v = some image

namespace Grows

theorem refl (r : Layout) : r.Grows r := fun _ _ h => h

theorem trans (h : r.Grows s) (h' : s.Grows u) : r.Grows u :=
  fun v image hv => h' v image (h v image hv)

theorem has (h : r.Grows s) (hv : r.Has v) : s.Has v := by
  obtain ⟨image, hv⟩ := Option.isSome_iff_exists.1 hv
  exact Option.isSome_iff_exists.2 ⟨image, h v image hv⟩

theorem valuation (h : r.Grows s) (hv : r.Has v) :
    s.valuation x v.toVarKey = r.valuation x v.toVarKey := by
  obtain ⟨image, hv⟩ := Option.isSome_iff_exists.1 hv
  rw [valuation_of_get? hv, valuation_of_get? (h v image hv)]

end Grows

/-- Every variable that occurs in the expression, apart from those that decompositions in it
introduce, is registered. -/
def Covers (r : Layout) (e : Expr) : Prop := ∀ v ∈ e.occurrences [], r.Has v

theorem covers_of_varsOf {es : List Expr} (h : ∀ v ∈ varsOf es, r.Has v) (he : e ∈ es) :
    r.Covers e := fun v hv => by
  obtain ⟨w, hw, heq⟩ :=
    List.mem_map.1 (mem_keysOf_firstOfEach (mem_occurrencesInAll.2 ⟨e, he, hv⟩))
  exact (has_congr heq).1 (h w hw)

theorem covers_of_vars (h : ∀ v ∈ e.vars, r.Has v) : r.Covers e :=
  covers_of_varsOf h (List.mem_singleton_self e)

theorem Grows.covers (h : r.Grows s) (he : r.Covers e) : s.Covers e := fun v hv => h.has (he v hv)

theorem Covers.child {d : Expr} (h : r.Covers e) (hd : d ∈ e.children) : r.Covers d :=
  fun v hv => h v (mem_occurrences_of_child hd hv)

/-- Valuations that give registered variables the same values agree on a covered expression. -/
theorem Covers.agree {σ τ : Valuation} (h : r.Covers e)
    (hστ : ∀ v, r.Has v → σ v.toVarKey = τ v.toVarKey) : Valuation.Agree σ τ [] e :=
  ⟨fun v hv => hστ v (h v hv), List.forall_mem_nil _⟩

theorem Grows.holds (h : r.Grows s) (he : r.Covers e) :
    e.holds (s.valuation x) = e.holds (r.valuation x) :=
  truthHasFrame e (he.agree fun _ hv => h.valuation hv)

end Layout

end Linearization
