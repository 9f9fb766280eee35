import Linearization.Literal
import Linearization.Relation
import Mathlib.Algebra.Ring.Int.Defs
import Mathlib.Logic.Function.Basic

/-!
# Forms under assignments

What the checked operations on affine forms do to their values, and on which columns a value
depends. `AgreeBelow n x y` says that two assignments cannot be told apart by the first `n` columns;
a form all of whose columns lie below `n` has then the same value under both.
-/

namespace Linearization

/-- Integer values for the columns of a program. -/
abbrev Assignment := Nat → Int

/-- The first `n` columns have the same values. -/
def AgreeBelow (n : Nat) (x y : Assignment) : Prop := ∀ i < n, x i = y i

namespace AgreeBelow

variable {m n : Nat} {x y z : Assignment}

theorem refl (n : Nat) (x : Assignment) : AgreeBelow n x x := fun _ _ => rfl

theorem trans (h : AgreeBelow n x y) (h' : AgreeBelow n y z) : AgreeBelow n x z :=
  fun i hi => (h i hi).trans (h' i hi)

theorem mono (h : AgreeBelow n x y) (hmn : m ≤ n) : AgreeBelow m x y :=
  fun i hi => h i (Nat.lt_of_lt_of_le hi hmn)

end AgreeBelow

/-- The condition only looks at the first `n` columns. -/
def Local (n : Nat) (C : Assignment → Prop) : Prop := ∀ x y, AgreeBelow n x y → (C x ↔ C y)

namespace Local

variable {m n : Nat} {C D : Assignment → Prop}

theorem mono (h : Local m C) (hmn : m ≤ n) : Local n C := fun x y hxy => h x y (hxy.mono hmn)

theorem imp (hC : Local n C) (hD : Local n D) : Local n fun x => C x → D x :=
  fun x y hxy => imp_congr (hC x y hxy) (hD x y hxy)

end Local

theorem AgreeBelow.update {n i : Nat} (h : n ≤ i) (x : Assignment) (value : Int) :
    AgreeBelow n x (Function.update x i value) := by
  intro j hj
  rw [Function.update_of_ne]
  omega

namespace Affine

variable {a b c e : Affine} {k : Int}

/-! ## Values of checked results -/

theorem eq_of_checked (h : e.checked = .ok c) : c = e := by
  unfold checked at h
  split at h
  · exact (Except.ok.inj h).symm
  · cases h

theorem eval_of_plus (h : a.plus b = .ok c) (x : Assignment) :
    c.eval x = a.eval x + b.eval x := by
  rw [eq_of_checked h, eval_add]

theorem eval_of_scale (h : e.scale k = .ok c) (x : Assignment) : c.eval x = k * e.eval x := by
  rw [eq_of_checked h, eval_smul]

theorem eval_of_negated (h : e.negated = .ok c) (x : Assignment) : c.eval x = -e.eval x := by
  rw [eval_of_scale h]
  omega

theorem eval_of_minus (h : a.minus b = .ok c) (x : Assignment) :
    c.eval x = a.eval x - b.eval x := by
  unfold minus at h
  cases hn : b.negated with
  | error _ => rw [hn] at h; cases h
  | ok negative =>
    rw [hn] at h
    rw [eval_of_plus h, eval_of_negated hn]
    omega

theorem eval_of_asConstant (h : e.asConstant = some k) (x : Assignment) : e.eval x = k := by
  unfold asConstant at h
  split at h
  · rename_i hnil
    simp only [Option.some.injEq] at h
    simp [eval, hnil, h]
  · cases h

theorem eval_of_asColumn {i : Nat} (h : e.asColumn = some i) (x : Assignment) :
    e.eval x = x i := by
  unfold asColumn at h
  split at h
  · rename_i t hterms
    split at h
    · rename_i ht
      simp only [Option.some.injEq] at h
      simp [eval, hterms, ht.1, ht.2, h]
    · cases h
  · cases h

/-! ## The columns of a form -/

/-- Every column of the form has an index below `n`. -/
def Below (n : Nat) (e : Affine) : Prop := ∀ t ∈ e.terms, t.column < n

instance (n : Nat) (e : Affine) : Decidable (e.Below n) :=
  inferInstanceAs (Decidable (∀ t ∈ e.terms, t.column < n))

theorem Below.mono {m n : Nat} (h : e.Below m) (hmn : m ≤ n) : e.Below n :=
  fun t ht => Nat.lt_of_lt_of_le (h t ht) hmn

theorem column_of_mem_merge {t : Term} {ts us : List Term} (h : t ∈ Term.merge ts us) :
    ∃ u, (u ∈ ts ∨ u ∈ us) ∧ t.column = u.column := by
  replace h := (List.mem_filter.1 h).1
  induction us generalizing ts with
  | nil => exact ⟨t, .inl h, rfl⟩
  | cons u us ih =>
    obtain ⟨v, hv | hv, hcol⟩ := ih h
    · rcases Term.column_of_mem_insert hv with hu | ⟨w, hw, hcol'⟩
      · exact ⟨u, .inr List.mem_cons_self, hcol.trans hu⟩
      · exact ⟨w, .inl hw, hcol.trans hcol'⟩
    · exact ⟨v, .inr (List.mem_cons_of_mem _ hv), hcol⟩

theorem Below.of_plus {n : Nat} (h : a.plus b = .ok c) (ha : a.Below n) (hb : b.Below n) :
    c.Below n := by
  rw [eq_of_checked h]
  intro t ht
  obtain ⟨u, hu, hcol⟩ := column_of_mem_merge (show t ∈ Term.merge a.terms b.terms from ht)
  rw [hcol]
  exact hu.elim (ha u) (hb u)

theorem Below.of_scale {n : Nat} (h : e.scale k = .ok c) (he : e.Below n) : c.Below n := by
  rw [eq_of_checked h]
  intro t ht
  unfold smul at ht
  split at ht
  · cases ht
  · obtain ⟨u, hu, rfl⟩ := List.mem_map.1 ht
    exact he u hu

theorem Below.of_negated {n : Nat} (h : e.negated = .ok c) (he : e.Below n) : c.Below n :=
  Below.of_scale h he

theorem Below.of_minus {n : Nat} (h : a.minus b = .ok c) (ha : a.Below n) (hb : b.Below n) :
    c.Below n := by
  unfold minus at h
  cases hn : b.negated with
  | error _ => rw [hn] at h; cases h
  | ok negative =>
    rw [hn] at h
    exact Below.of_plus h ha (Below.of_negated hn hb)

theorem foldlM_cons_eq_ok {α : Type} {step : Affine → α → Except LoweringError Affine} {item : α}
    {items : List α} (h : (item :: items).foldlM step e = .ok c) :
    ∃ next, step e item = .ok next ∧ items.foldlM step next = .ok c := by
  rw [List.foldlM_cons] at h
  cases hnext : step e item with
  | error error =>
    rw [hnext] at h
    cases h
  | ok next =>
    rw [hnext] at h
    exact ⟨next, rfl, h⟩

theorem Below.of_foldlM {α : Type} {n : Nat} {step : Affine → α → Except LoweringError Affine}
    {as : List α} (hstep : ∀ a ∈ as, ∀ d d', d.Below n → step d a = .ok d' → d'.Below n)
    (he : e.Below n) (h : as.foldlM step e = .ok c) : c.Below n := by
  induction as generalizing e with
  | nil =>
    cases h
    exact he
  | cons a as ih =>
    rw [List.forall_mem_cons] at hstep
    obtain ⟨next, hnext, hrest⟩ := foldlM_cons_eq_ok h
    exact ih hstep.2 (hstep.1 e next he hnext) hrest

/-- Every item adds a multiple of its value to the accumulated form. -/
theorem eval_of_foldlM {α : Type} {step : Affine → α → Except LoweringError Affine}
    {items : List α} {x : Assignment} {factor : Int} {value : α → Int}
    (hstep : ∀ {d d' item}, step d item = .ok d' → d'.eval x = d.eval x + factor * value item)
    (h : items.foldlM step e = .ok c) :
    c.eval x = e.eval x + factor * (items.map value).sum := by
  induction items generalizing e with
  | nil =>
    cases h
    simp
  | cons item items ih =>
    obtain ⟨next, hnext, hrest⟩ := foldlM_cons_eq_ok h
    rw [ih hrest, hstep hnext, List.map_cons, List.sum_cons, Int.mul_add, Int.add_assoc]

theorem sum_congr {n : Nat} {x y : Assignment} (hxy : AgreeBelow n x y) :
    ∀ {ts : List Term}, (∀ t ∈ ts, t.column < n) → Term.sum x ts = Term.sum y ts
  | [], _ => rfl
  | t :: ts, h => by
    rw [Term.sum_cons, Term.sum_cons, hxy t.column (h t (List.mem_cons_self ..)),
      sum_congr hxy fun u hu => h u (List.mem_cons_of_mem _ hu)]

theorem Below.eval_congr {n : Nat} (h : e.Below n) {x y : Assignment} (hxy : AgreeBelow n x y) :
    e.eval x = e.eval y := by
  unfold eval
  rw [sum_congr hxy h]

@[simp] theorem below_const (n : Nat) (k : Int) : (const k).Below n := by
  simp [Below, const]

theorem below_single {n i : Nat} (h : i < n) (k : Int) : (single i k).Below n := by
  unfold single
  split <;> simp [Below, const, h]

@[simp] theorem below_ofColumn {n i : Nat} : (ofColumn i).Below n ↔ i < n := by
  simp [Below, ofColumn, single]

end Affine

namespace Literal

variable {n : Nat} {x y : Assignment} {l : Literal}

@[simp] theorem below_toAffine : l.toAffine.Below n ↔ l.column < n := by
  unfold toAffine
  split
  · simp
  · simp [Affine.Below]

theorem eval_congr (h : l.column < n) (hxy : AgreeBelow n x y) :
    l.toAffine.eval x = l.toAffine.eval y :=
  (below_toAffine.2 h).eval_congr hxy

theorem holds_congr (h : l.column < n) (hxy : AgreeBelow n x y) : l.Holds x ↔ l.Holds y := by
  unfold Holds
  rw [eval_congr h hxy]

theorem holds_ofColumn (x : Assignment) (i : Nat) : (ofColumn i).Holds x ↔ x i = 1 := by
  simp [Holds, eval_toAffine, ofColumn]

@[simp] theorem column_negate (l : Literal) : l.negate.column = l.column := rfl

/-! ## Guards -/

/-- Every literal is true under the assignment. -/
def AllHold (ls : List Literal) (x : Assignment) : Prop := ∀ l ∈ ls, l.Holds x

@[simp] theorem allHold_nil : AllHold [] x := by
  simp [AllHold]

@[simp] theorem allHold_cons {ls : List Literal} :
    AllHold (l :: ls) x ↔ l.Holds x ∧ AllHold ls x := by
  simp [AllHold]

@[simp] theorem allHold_append {ls ks : List Literal} :
    AllHold (ls ++ ks) x ↔ AllHold ls x ∧ AllHold ks x := by
  simp only [AllHold, List.mem_append, or_imp, forall_and]

theorem allHold_imp_iff {ls : List Literal} {C : Prop} :
    (AllHold ls x → C) ↔ (∃ l ∈ ls, ¬ l.Holds x) ∨ C := by
  rw [imp_iff_not_or, AllHold, not_forall₂]
  simp only [exists_prop]

theorem local_allHold {ls : List Literal} (h : ∀ l ∈ ls, l.column < n) : Local n (AllHold ls) :=
  fun _ _ hxy => forall₂_congr fun l hl => holds_congr (h l hl) hxy

end Literal

namespace Relation

variable {r : Relation} {d : Affine}

/-- A relation compares the difference of its sides with zero. -/
theorem holds_iff_difference (h : r.difference = .ok d) (x : Assignment) :
    r.Holds x ↔ r.op.Holds (d.eval x) 0 := by
  rw [Affine.eval_of_minus h]
  unfold Holds
  cases r.op <;> simp only [Comparison.Holds] <;> omega

/-- Every column of both sides has an index below `n`. -/
def Below (n : Nat) (r : Relation) : Prop := r.lhs.Below n ∧ r.rhs.Below n

instance (n : Nat) (r : Relation) : Decidable (r.Below n) := inferInstanceAs (Decidable (_ ∧ _))

theorem local_holds {n : Nat} (h : r.Below n) : Local n r.Holds := by
  intro x y hxy
  show r.op.Holds _ _ ↔ r.op.Holds _ _
  rw [h.1.eval_congr hxy, h.2.eval_congr hxy]

end Relation

end Linearization
