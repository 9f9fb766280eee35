import Linearization.Proofs.Ilp.Extends
import Linearization.Proofs.Run

/-!
# Elementary steps

What the smallest steps of a lowering do: checks leave the program alone, columns and rows are
appended, and the true literal holds in every solution. A lowering is `Steady` if whatever its
outcome, it only appends and keeps the program well-formed.
-/

namespace Linearization

/-- The program has grown and is still well-formed. -/
def Ilp.Preserves (p q : Ilp) : Prop := p.WellFormed → p.Grows q ∧ q.WellFormed

instance : Std.Refl Ilp.Preserves := ⟨fun p hp => ⟨.refl p, hp⟩⟩

instance : Trans Ilp.Preserves Ilp.Preserves Ilp.Preserves :=
  ⟨fun h h' hp => ⟨(h hp).1.trans (h' (h hp).2).1, (h' (h hp).2).2⟩⟩

namespace Lowering

open Ilp

variable {α : Type} {p q r : Ilp} {l : Literal} {i : Nat} {N M G : Assignment → Prop}

/-- Whatever the outcome, the program grows and stays well-formed. -/
abbrev Steady (m : Lowering α) : Prop := Keeps Ilp.Preserves m

theorem Steady.grows {m : Lowering α} (hm : Steady m) (hp : p.WellFormed) {a : α}
    (h : m p = .ok a q) : p.Grows q := (hm.of_ok h hp).1

theorem Steady.wellFormed {m : Lowering α} (hm : Steady m) (hp : p.WellFormed) {a : α}
    (h : m p = .ok a q) : q.WellFormed := (hm.of_ok h hp).2

/-! ## Checks -/

theorem liftM_eq_ok {x : Except LoweringError α} {a : α} :
    (liftM x : Lowering α) p = .ok a q ↔ x = .ok a ∧ p = q := by
  show ofExcept x p = _ ↔ _
  cases x with
  | ok b => simp [ofExcept, pure_eq_ok]
  | error e => simp [ofExcept, throw_eq_ok]

theorem steady_liftM (x : Except LoweringError α) : Steady (liftM x : Lowering α) := by
  show Steady (ofExcept x)
  cases x with
  | ok a => exact Keeps.pure a
  | error e => exact Keeps.throw e

/-- Checks one after the other are one check. -/
theorem foldlM_liftM_eq_ok {β : Type} {f : β → α → Except LoweringError β} {as : List α}
    {b b' : β} : (as.foldlM (fun b a => (liftM (f b a) : Lowering β)) b) p = .ok b' q ↔
      as.foldlM f b = .ok b' ∧ p = q := by
  induction as generalizing b with
  | nil =>
    rw [List.foldlM_nil, List.foldlM_nil, pure_eq_ok]
    simp [pure, Except.pure]
  | cons a as ih =>
    rw [List.foldlM_cons, List.foldlM_cons, bind_eq_ok]
    cases hf : f b a with
    | error e => simp [liftM_eq_ok, bind, Except.bind]
    | ok c =>
      simp only [liftM_eq_ok, Except.ok.injEq, bind, Except.bind]
      rw [← ih (b := c)]
      constructor
      · rintro ⟨_, _, ⟨rfl, rfl⟩, h⟩
        exact h
      · exact fun h => ⟨c, p, ⟨rfl, rfl⟩, h⟩

theorem steady_foldlM_liftM {β : Type} (f : β → α → Except LoweringError β) (as : List α)
    (b : β) : Steady (as.foldlM (fun b a => (liftM (f b a) : Lowering β)) b) := by
  induction as generalizing b with
  | nil => exact Keeps.pure b
  | cons a as ih =>
    rw [List.foldlM_cons]
    exact (steady_liftM _).bind ih

theorem bounds_eq_ok {e : Affine} {b : Int × Int} :
    bounds e p = .ok b q ↔ p.bounds e = .ok b ∧ p = q := by
  unfold bounds
  simp only [bind_eq_ok, get_eq_ok, liftM_eq_ok]
  constructor
  · rintro ⟨_, _, ⟨rfl, rfl⟩, h⟩
    exact h
  · rintro ⟨h, rfl⟩
    exact ⟨p, p, ⟨rfl, rfl⟩, h, rfl⟩

theorem steady_bounds (e : Affine) : Steady (bounds e) :=
  Keeps.get.bind fun _ => steady_liftM _

/-! ## Columns and rows -/

theorem addColumn_eq_ok {c : Column} :
    addColumn c p = .ok i q ↔ i = p.columns.size ∧ q = p.withColumn c := by
  unfold addColumn
  simp only [bind_eq_ok, get_eq_ok, modify_eq_ok, pure_eq_ok]
  constructor
  · rintro ⟨_, _, ⟨rfl, rfl⟩, _, _, rfl, rfl, rfl⟩
    exact ⟨rfl, rfl⟩
  · rintro ⟨rfl, rfl⟩
    exact ⟨p, p, ⟨rfl, rfl⟩, (), _, rfl, rfl, rfl⟩

theorem steady_addColumn (c : Column) : Steady (addColumn c) :=
  fun p hp => ⟨p.grows_withColumn c, hp.withColumn c⟩

theorem preserves_addRow {row : Row} (hrow : ∀ t ∈ row.terms, t.column < p.columns.size) :
    KeepsAt Ilp.Preserves (addRow row) p :=
  fun hp => ⟨p.grows_withRow row, hp.withRow hrow⟩

theorem addRow_eq_ok {row : Row} {u : Unit} : addRow row p = .ok u q ↔ p.withRow row = q :=
  modify_eq_ok

theorem newBool_eq_ok {name : String} (h : newBool name p = .ok l q) :
    l = .ofColumn p.columns.size ∧ q = p.withColumn ⟨name, 0, 1, true⟩ := by
  unfold newBool at h
  simp only [bind_eq_ok, pure_eq_ok, addColumn_eq_ok] at h
  obtain ⟨_, _, ⟨rfl, rfl⟩, rfl, rfl⟩ := h
  exact ⟨rfl, rfl⟩

theorem steady_newBool (name : String) : Steady (newBool name) :=
  (steady_addColumn _).bind fun _ => Keeps.pure _

theorem steady_auxiliaryName (purpose : String) : Steady (auxiliaryName purpose) :=
  Keeps.get.bind fun _ => Keeps.pure _

theorem auxiliaryBool_eq_ok {purpose : String} (h : auxiliaryBool purpose p = .ok l q) :
    l = .ofColumn p.columns.size ∧ ∃ name, q = p.withColumn ⟨name, 0, 1, true⟩ := by
  unfold auxiliaryBool auxiliaryName at h
  simp only [bind_eq_ok, pure_eq_ok, get_eq_ok] at h
  obtain ⟨_, _, ⟨_, _, ⟨rfl, rfl⟩, rfl, rfl⟩, h⟩ := h
  exact ⟨(newBool_eq_ok h).1, _, (newBool_eq_ok h).2⟩

theorem steady_auxiliaryBool (purpose : String) : Steady (auxiliaryBool purpose) :=
  (steady_auxiliaryName purpose).bind fun name => steady_newBool name

theorem auxiliaryInt_eq_ok {purpose : String} {lower upper : Int}
    (h : auxiliaryInt purpose lower upper p = .ok i q) :
    i = p.columns.size ∧ ∃ name, q = p.withColumn ⟨name, lower, upper, false⟩ := by
  unfold auxiliaryInt auxiliaryName newInt at h
  simp only [bind_eq_ok, pure_eq_ok, get_eq_ok, addColumn_eq_ok] at h
  obtain ⟨_, _, ⟨_, _, ⟨rfl, rfl⟩, rfl, rfl⟩, rfl, rfl⟩ := h
  exact ⟨rfl, _, rfl⟩

theorem column_of_auxiliaryInt {purpose : String} {lower upper : Int}
    (h : auxiliaryInt purpose lower upper p = .ok i q) :
    i < q.columns.size ∧ ∀ x, q.Solves x → lower ≤ x i ∧ x i ≤ upper := by
  obtain ⟨rfl, name, rfl⟩ := auxiliaryInt_eq_ok h
  refine ⟨by rw [size_withColumn]; omega, fun x hx => ?_⟩
  exact hx.1 _ _ (p.getElem?_withColumn_size _)

theorem steady_auxiliaryInt (purpose : String) (lower upper : Int) :
    Steady (auxiliaryInt purpose lower upper) :=
  (steady_auxiliaryName purpose).bind fun _ => steady_addColumn _

theorem isTruth_of_auxiliaryBool {purpose : String} (h : auxiliaryBool purpose p = .ok l q) :
    q.IsTruth l := by
  obtain ⟨rfl, name, rfl⟩ := auxiliaryBool_eq_ok h
  exact ⟨_, p.getElem?_withColumn_size _, Int.le_refl 0, Int.le_refl 1⟩

/-- A new truth value may be chosen. -/
theorem exists_of_auxiliaryBool {purpose : String} {x : Assignment} (hp : p.WellFormed)
    (h : auxiliaryBool purpose p = .ok l q) (hx : p.Solves x) (P : Prop) :
    ∃ y, AgreeBelow p.columns.size x y ∧ q.Solves y ∧ (l.Holds y ↔ P) := by
  obtain ⟨rfl, name, rfl⟩ := auxiliaryBool_eq_ok h
  classical
  let y : Assignment := Function.update x p.columns.size (if P then 1 else 0)
  have hxy : AgreeBelow p.columns.size x y := AgreeBelow.update (Nat.le_refl _) x _
  have hy : y p.columns.size = if P then 1 else 0 := Function.update_self ..
  have hadmits : Column.Admits ⟨name, 0, 1, true⟩ (y p.columns.size) := by
    rw [hy]
    split <;> simp [Column.Admits]
  refine ⟨y, hxy, solves_withColumn.2 ⟨hp.solves_congr hxy hx, hadmits⟩, ?_⟩
  rw [Literal.holds_ofColumn, hy]
  split <;> simp_all

/-- The rest of a lowering after a step whose outcome may be chosen as the rest needs it. -/
theorem extends_of_choice (hg : p.Grows q) (hr : q.Extends r N G)
    (hC : ∀ x, p.Solves x → M x →
      ∃ y, AgreeBelow p.columns.size x y ∧ q.Solves y ∧ N y) :
    p.Extends r M G where
  grows := hg.trans hr.grows
  wellFormed := hr.wellFormed
  sound := hr.sound
  complete x hx hm := by
    obtain ⟨y, hxy, hy, hn⟩ := hC x hx hm
    obtain ⟨z, hyz, hz⟩ := hr.complete y hy hn
    exact ⟨z, hxy.trans (hyz.mono hg.size_le), hz⟩

theorem extends_of_auxiliaryBool {purpose : String} (hp : p.WellFormed)
    (h : auxiliaryBool purpose p = .ok l q) (hr : q.Extends r N G)
    (hN : ∀ x, p.Solves x → M x → ∃ P : Prop, ∀ y, AgreeBelow p.columns.size x y → q.Solves y →
      (l.Holds y ↔ P) → N y) :
    p.Extends r M G :=
  extends_of_choice ((steady_auxiliaryBool _).grows hp h) hr fun x hx hm => by
    obtain ⟨P, hP⟩ := hN x hx hm
    obtain ⟨y, hxy, hy, hl⟩ := exists_of_auxiliaryBool hp h hx P
    exact ⟨y, hxy, hy, hP y hxy hy hl⟩

theorem exists_of_auxiliaryInt {purpose : String} {lower upper v : Int} {x : Assignment}
    (hp : p.WellFormed) (h : auxiliaryInt purpose lower upper p = .ok i q) (hx : p.Solves x)
    (hl : lower ≤ v) (hu : v ≤ upper) :
    ∃ y, AgreeBelow p.columns.size x y ∧ q.Solves y ∧ y i = v := by
  obtain ⟨rfl, name, rfl⟩ := auxiliaryInt_eq_ok h
  let y : Assignment := Function.update x p.columns.size v
  have hxy : AgreeBelow p.columns.size x y := AgreeBelow.update (Nat.le_refl _) x _
  have hy : y p.columns.size = v := Function.update_self ..
  have hadmits : Column.Admits ⟨name, lower, upper, false⟩ (y p.columns.size) := by
    rw [hy]
    exact ⟨hl, hu⟩
  exact ⟨y, hxy, solves_withColumn.2 ⟨hp.solves_congr hxy hx, hadmits⟩, hy⟩

theorem extends_of_auxiliaryInt {purpose : String} {lower upper : Int} (hp : p.WellFormed)
    (h : auxiliaryInt purpose lower upper p = .ok i q) (hr : q.Extends r N G)
    (hN : ∀ x, p.Solves x → M x → ∃ v, lower ≤ v ∧ v ≤ upper ∧
      ∀ y, AgreeBelow p.columns.size x y → q.Solves y → y i = v → N y) :
    p.Extends r M G :=
  extends_of_choice ((steady_auxiliaryInt _ _ _).grows hp h) hr fun x hx hm => by
    obtain ⟨v, hl, hu, hv⟩ := hN x hx hm
    obtain ⟨y, hxy, hy, hyi⟩ := exists_of_auxiliaryInt hp h hx hl hu
    exact ⟨y, hxy, hy, hv y hxy hy hyi⟩

/-- A new integer whose rows say that it has a certain value within its bounds. -/
theorem computes_of_auxiliaryInt {purpose : String} {lower upper : Int} {f : Assignment → Int}
    (hp : p.WellFormed) (h : auxiliaryInt purpose lower upper p = .ok i q)
    (hr : q.Imposes r fun x => x i = f x)
    (hf : ∀ x y, AgreeBelow p.columns.size x y → f x = f y)
    (hrange : ∀ x, p.Solves x → lower ≤ f x ∧ f x ≤ upper) :
    p.Computes r (.ofColumn i) f := by
  refine ⟨?_, (extends_of_auxiliaryInt hp h hr fun x hx _ => ?_).weaken fun x _ hx => ?_⟩
  · obtain ⟨rfl, name, rfl⟩ := auxiliaryInt_eq_ok h
    refine Affine.below_ofColumn.2 (Nat.lt_of_lt_of_le ?_ hr.grows.size_le)
    rw [size_withColumn]
    omega
  · exact ⟨f x, (hrange x hx).1, (hrange x hx).2, fun y hxy _ hy => hy.trans (hf x y hxy)⟩
  · rw [Affine.eval_ofColumn, hx]

/-! ## Constants -/

/-- The program with a new column that is fixed to one and becomes the true column. -/
def withTrue (p : Ilp) : Ilp :=
  { p.withColumn ⟨"_true", 1, 1, true⟩ with trueColumn := some p.columns.size }

theorem trueLiteral_of_some (h : p.trueColumn = some i) :
    trueLiteral p = .ok (.ofColumn i) p := by
  unfold trueLiteral
  refine bind_eq_ok.2 ⟨p, p, rfl, ?_⟩
  rw [h]
  rfl

theorem trueLiteral_of_none (h : p.trueColumn = none) :
    trueLiteral p = .ok (.ofColumn p.columns.size) (withTrue p) := by
  unfold trueLiteral
  refine bind_eq_ok.2 ⟨p, p, rfl, ?_⟩
  rw [h]
  rfl

theorem exists_trueLiteral (p : Ilp) : ∃ l q, trueLiteral p = .ok l q := by
  cases h : p.trueColumn with
  | some i => exact ⟨_, _, trueLiteral_of_some h⟩
  | none => exact ⟨_, _, trueLiteral_of_none h⟩

theorem grows_withTrue (h : p.trueColumn = none) : p.Grows (withTrue p) where
  columns := (p.grows_withColumn _).columns
  rows := List.prefix_refl _
  trueColumn i hi := by
    rw [h] at hi
    cases hi
  encodings := List.suffix_refl _
  objective := rfl
  enumerationLimit := rfl

theorem wellFormed_withTrue (hp : p.WellFormed) (h : p.trueColumn = none) :
    (withTrue p).WellFormed where
  rows := (hp.withColumn _).rows
  trueColumn i hi := by
    cases hi
    exact ⟨_, p.getElem?_withColumn_size _, rfl, rfl⟩
  encodings entry he := (hp.encodings entry he).mono (grows_withTrue h)
  sizes := hp.sizes
  distinct := hp.distinct

theorem steady_trueLiteral : Steady trueLiteral := by
  intro p hp
  cases h : p.trueColumn with
  | some i =>
    rw [stateAfter_of_ok (trueLiteral_of_some h)]
    exact ⟨.refl p, hp⟩
  | none =>
    rw [stateAfter_of_ok (trueLiteral_of_none h)]
    exact ⟨grows_withTrue h, wellFormed_withTrue hp h⟩

theorem column_of_trueLiteral (hp : p.WellFormed) (h : trueLiteral p = .ok l q) :
    l.positive = true ∧ ∃ c, q.columns[l.column]? = some c ∧ c.lower = 1 ∧ c.upper = 1 := by
  cases ht : p.trueColumn with
  | some i =>
    rw [trueLiteral_of_some ht] at h
    cases h
    exact ⟨rfl, hp.trueColumn i ht⟩
  | none =>
    rw [trueLiteral_of_none ht] at h
    cases h
    exact ⟨rfl, _, p.getElem?_withColumn_size _, rfl, rfl⟩

theorem isTruth_of_trueLiteral (hp : p.WellFormed) (h : trueLiteral p = .ok l q) :
    q.IsTruth l := by
  obtain ⟨-, c, hc, hl, hu⟩ := column_of_trueLiteral hp h
  exact ⟨c, hc, by omega, by omega⟩

/-- The true literal excludes nothing, and it is true. -/
theorem defines_of_trueLiteral (hp : p.WellFormed) (h : trueLiteral p = .ok l q) :
    p.Defines q l.Holds where
  grows := steady_trueLiteral.grows hp h
  wellFormed := steady_trueLiteral.wellFormed hp h
  sound x hx := by
    obtain ⟨hpos, c, hc, hl, hu⟩ := column_of_trueLiteral hp h
    have hadmits := hx.1 _ c hc
    unfold Column.Admits at hadmits
    unfold Literal.Holds
    rw [Literal.eval_toAffine, if_pos hpos]
    omega
  complete x hx _ := by
    cases ht : p.trueColumn with
    | some i =>
      rw [trueLiteral_of_some ht] at h
      cases h
      exact ⟨x, AgreeBelow.refl _ x, hx⟩
    | none =>
      rw [trueLiteral_of_none ht] at h
      cases h
      refine ⟨_, AgreeBelow.update (Nat.le_refl _) x 1, ?_⟩
      refine solves_withColumn.2 ⟨hp.solves_congr (AgreeBelow.update (Nat.le_refl _) x 1) hx, ?_⟩
      rw [Function.update_self]
      exact ⟨Int.le_refl 1, Int.le_refl 1⟩

theorem steady_constantLiteral (b : Bool) : Steady (constantLiteral b) :=
  steady_trueLiteral.bind fun _ => Keeps.pure _

theorem reifies_of_constantLiteral {b : Bool} (hp : p.WellFormed)
    (h : constantLiteral b p = .ok l q) : p.Reifies q l fun _ => b = true := by
  unfold constantLiteral at h
  simp only [bind_eq_ok, pure_eq_ok] at h
  obtain ⟨t, _, ht, rfl, rfl⟩ := h
  have htruth := isTruth_of_trueLiteral hp ht
  refine ⟨?_, (defines_of_trueLiteral hp ht).weaken fun x hx hl => ?_⟩
  · cases b with
    | true => exact htruth
    | false => exact isTruth_negate.2 htruth
  · cases b with
    | true => simpa using hl
    | false => simpa [htruth.holds_negate hx] using hl

/-! ## Sequences -/

theorem imposes_of_forM {f : α → Lowering PUnit} {C : α → Assignment → Prop} {as : List α}
    {u : PUnit} (hp : p.WellFormed)
    (hstep : ∀ a ∈ as, ∀ s t u, p.Grows s → s.WellFormed → f a s = .ok u t → s.Imposes t (C a))
    (hlocal : ∀ a ∈ as, Local p.columns.size (C a)) (h : as.forM f p = .ok u q) :
    p.Imposes q fun x => ∀ a ∈ as, C a x := by
  induction as generalizing p with
  | nil =>
    obtain ⟨-, rfl⟩ := pure_eq_ok.1 h
    exact Imposes.refl hp fun x _ => List.forall_mem_nil _
  | cons a as ih =>
    rw [List.forM_eq_forM, List.forM_cons, bind_eq_ok] at h
    obtain ⟨u', r, ha, h⟩ := h
    have hfirst := hstep a List.mem_cons_self p r u' (.refl p) hp ha
    have hrest := ih hfirst.wellFormed
      (fun b hb s t u hs => hstep b (List.mem_cons_of_mem _ hb) s t u (hfirst.grows.trans hs))
      (fun b hb => (hlocal b (List.mem_cons_of_mem _ hb)).mono hfirst.grows.size_le) h
    have hboth := hfirst.trans hrest fun x y hxy => forall₂_congr fun b hb =>
      hlocal b (List.mem_cons_of_mem _ hb) x y hxy
    exact hboth.congr fun x _ => (List.forall_mem_cons (p := fun b => C b x)).symm

end Lowering

end Linearization
