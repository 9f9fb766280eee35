import Linearization.Ilp.Choice
import Linearization.Proofs.Ilp.Clause
import Linearization.Proofs.Ilp.Encoding

/-!
# Exactness of distinct values, extrema and selected items

`enforceDistinct` imposes that the forms are pairwise different, `addExtremum` that the target is
beyond every form and equal to one, and `enforceElement` that the index is a position and the target
the item there; the first and the last of them where every guard is true.
-/

namespace Linearization.Lowering

open Ilp Literal

variable {p q : Ilp} {e target index : Affine} {forms items : List Affine}
  {guards : List Literal} {op : Comparison} {x : Assignment} {u : Unit}

/-! ## Distinct values -/

theorem steady_enforceDiffers (e : Affine) (others : List Affine) (guards : List Literal) :
    Steady (enforceDiffers e others guards) :=
  Keeps.forM (fun _ => steady_enforce _ _) others

theorem imposes_of_enforceDiffers (hp : p.WellFormed) (hg : ∀ g ∈ guards, p.IsTruth g)
    (he : e.Below p.columns.size) (hforms : ∀ d ∈ forms, d.Below p.columns.size)
    (h : enforceDiffers e forms guards p = .ok u q) :
    p.Imposes q fun x => ∀ d ∈ forms, AllHold guards x → e.eval x ≠ d.eval x := by
  refine imposes_of_forM hp (fun d _ s t u hs hwf h => ?_) (fun d hd => ?_) h
  · exact imposes_of_enforce hwf (fun g hmem => (hg g hmem).mono hs) h
  · exact (local_allHold fun g hmem => (hg g hmem).column_lt).imp
      (Relation.local_holds (r := ⟨e, .ne, d⟩) ⟨he, hforms d hd⟩)

theorem steady_enforceDistinct (guards : List Literal) (forms : List Affine) :
    Steady (enforceDistinct guards forms) := by
  induction forms with
  | nil => exact Keeps.pure _
  | cons e forms ih => exact (steady_enforceDiffers e forms guards).bind fun _ => ih

theorem imposes_of_enforceDistinct (hp : p.WellFormed) (hg : ∀ g ∈ guards, p.IsTruth g)
    (hforms : ∀ d ∈ forms, d.Below p.columns.size)
    (h : enforceDistinct guards forms p = .ok u q) :
    p.Imposes q fun x => AllHold guards x → forms.Pairwise fun a b => a.eval x ≠ b.eval x := by
  induction forms generalizing p with
  | nil =>
    obtain ⟨-, rfl⟩ := pure_eq_ok.1 h
    exact Imposes.refl hp fun x _ _ => List.Pairwise.nil
  | cons e forms ih =>
    rw [List.forall_mem_cons] at hforms
    simp only [enforceDistinct, bind_eq_ok] at h
    obtain ⟨_, r, h₁, h₂⟩ := h
    have hfirst := imposes_of_enforceDiffers hp hg hforms.1 hforms.2 h₁
    have hrest := ih hfirst.wellFormed (fun g hmem => (hg g hmem).mono hfirst.grows)
      (fun d hd => (hforms.2 d hd).mono hfirst.grows.size_le) h₂
    refine (hfirst.trans hrest ?_).congr fun x _ => ?_
    · refine (local_allHold fun g hmem => (hg g hmem).column_lt).imp fun x y hxy => ?_
      refine List.Pairwise.iff_of_mem fun {a b} ha hb => ?_
      rw [(hforms.2 a ha).eval_congr hxy, (hforms.2 b hb).eval_congr hxy]
    · rw [List.pairwise_cons]
      exact ⟨fun h hall => ⟨fun d hd => h.1 d hd hall, h.2 hall⟩,
        fun h => ⟨fun d hd hall => (h hall).1 d hd, fun hall => (h hall).2⟩⟩

/-! ## Extrema -/

theorem steady_addWitnesses (target : Affine) (op : Comparison) (forms : List Affine) :
    Steady (addWitnesses target op forms) := by
  induction forms with
  | nil => exact Keeps.pure _
  | cons e forms ih =>
    exact (steady_enforce _ _).bind fun _ => (steady_auxiliaryBool _).bind fun _ =>
      (steady_enforce _ _).bind fun _ => ih.bind fun _ => Keeps.pure _

theorem steady_addExtremum (target : Affine) (forms : List Affine) (op : Comparison) :
    Steady (addExtremum target forms op) :=
  (steady_addWitnesses target op forms).bind fun _ => steady_addClause _ _

variable {ws : List Literal}

theorem addWitnesses_cons_eq_ok (h : addWitnesses target op (e :: forms) p = .ok ws q) :
    ∃ w rest u u' q₁ q₂ q₃, require ⟨target, op, e⟩ p = .ok u q₁ ∧
      auxiliaryBool "witness" q₁ = .ok w q₂ ∧ enforce ⟨target, .eq, e⟩ [w] q₂ = .ok u' q₃ ∧
      addWitnesses target op forms q₃ = .ok rest q ∧ ws = w :: rest := by
  simp only [addWitnesses, bind_eq_ok, pure_eq_ok] at h
  obtain ⟨u, q₁, h₁, w, q₂, h₂, u', q₃, h₃, rest, _, h₄, rfl, rfl⟩ := h
  exact ⟨w, rest, u, u', q₁, q₂, q₃, h₁, h₂, h₃, h₄, rfl⟩

theorem isTruth_of_addWitnesses (hp : p.WellFormed)
    (h : addWitnesses target op forms p = .ok ws q) : ∀ w ∈ ws, q.IsTruth w := by
  induction forms generalizing p ws with
  | nil =>
    obtain ⟨rfl, rfl⟩ := pure_eq_ok.1 h
    exact List.forall_mem_nil _
  | cons e forms ih =>
    obtain ⟨w, rest, u, u', q₁, q₂, q₃, h₁, h₂, h₃, h₄, rfl⟩ := addWitnesses_cons_eq_ok h
    have hq₁ := (steady_enforce _ _).wellFormed hp h₁
    have hq₂ := (steady_auxiliaryBool _).wellFormed hq₁ h₂
    have hq₃ := (steady_enforce _ _).wellFormed hq₂ h₃
    have hgrows := ((steady_enforce _ _).grows hq₂ h₃).trans
      ((steady_addWitnesses _ _ _).grows hq₃ h₄)
    exact List.forall_mem_cons.2 ⟨(isTruth_of_auxiliaryBool h₂).mono hgrows, ih hq₃ h₄⟩

/-- The target is beyond every form, and equal to those whose witness is true. -/
theorem sound_of_addWitnesses (hp : p.WellFormed) (h : addWitnesses target op forms p = .ok ws q)
    (hx : q.Solves x) : (∀ e ∈ forms, op.Holds (target.eval x) (e.eval x)) ∧
      (AnyHold ws x → ∃ e ∈ forms, target.eval x = e.eval x) := by
  induction forms generalizing p ws with
  | nil =>
    obtain ⟨rfl, rfl⟩ := pure_eq_ok.1 h
    simp
  | cons e forms ih =>
    obtain ⟨w, rest, u, u', q₁, q₂, q₃, h₁, h₂, h₃, h₄, rfl⟩ := addWitnesses_cons_eq_ok h
    have hbeyond := imposes_of_require hp h₁
    have hq₂ := (steady_auxiliaryBool _).wellFormed hbeyond.wellFormed h₂
    have hg₂ := (steady_auxiliaryBool _).grows hbeyond.wellFormed h₂
    have hequal := imposes_of_enforce hq₂ (by simpa using isTruth_of_auxiliaryBool h₂) h₃
    have hx₃ := ((steady_addWitnesses _ _ _).grows hequal.wellFormed h₄).solves hx
    obtain ⟨hrest, hany⟩ := ih hequal.wellFormed h₄
    refine ⟨List.forall_mem_cons.2 ⟨?_, hrest⟩, fun h => ?_⟩
    · exact hbeyond.sound x (hg₂.solves (hequal.grows.solves hx₃))
    · rcases anyHold_cons.1 h with hw | hws
      · exact ⟨e, List.mem_cons_self, hequal.sound x hx₃ (by simpa using hw)⟩
      · obtain ⟨d, hd, heq⟩ := hany hws
        exact ⟨d, List.mem_cons_of_mem _ hd, heq⟩

/-- Where the target is beyond every form, the witnesses of the forms that it equals may be true. -/
theorem exists_of_addWitnesses (hp : p.WellFormed) (htarget : target.Below p.columns.size)
    (hforms : ∀ e ∈ forms, e.Below p.columns.size)
    (h : addWitnesses target op forms p = .ok ws q) (hx : p.Solves x)
    (hop : ∀ e ∈ forms, op.Holds (target.eval x) (e.eval x)) :
    ∃ y, AgreeBelow p.columns.size x y ∧ q.Solves y ∧
      ((∃ e ∈ forms, target.eval x = e.eval x) → AnyHold ws y) := by
  induction forms generalizing p ws x with
  | nil =>
    obtain ⟨rfl, rfl⟩ := pure_eq_ok.1 h
    exact ⟨x, .refl _ x, hx, by simp⟩
  | cons e forms ih =>
    obtain ⟨w, rest, u, u', q₁, q₂, q₃, h₁, h₂, h₃, h₄, rfl⟩ := addWitnesses_cons_eq_ok h
    rw [List.forall_mem_cons] at hforms hop
    have hbeyond := imposes_of_require hp h₁
    have hq₂ := (steady_auxiliaryBool _).wellFormed hbeyond.wellFormed h₂
    have hg₂ := hbeyond.grows.trans ((steady_auxiliaryBool _).grows hbeyond.wellFormed h₂)
    have htruth := isTruth_of_auxiliaryBool h₂
    have hequal := imposes_of_enforce hq₂ (by simpa using htruth) h₃
    have hg₃ := hg₂.trans hequal.grows
    -- the witness of the first form is chosen, then those of the others
    obtain ⟨y, hxy, hy⟩ := hbeyond.complete x hx hop.1
    obtain ⟨z, hyz, hz, hw⟩ := exists_of_auxiliaryBool hbeyond.wellFormed h₂ hy
      (target.eval x = e.eval x)
    have hxz := hxy.trans (hyz.mono hbeyond.grows.size_le)
    obtain ⟨v, hzv, hv⟩ := hequal.complete z hz fun hwz => by
      show target.eval z = e.eval z
      rw [← htarget.eval_congr hxz, ← hforms.1.eval_congr hxz]
      exact hw.1 (by simpa using hwz)
    have hxv := hxz.trans (hzv.mono hg₂.size_le)
    obtain ⟨t, hvt, ht, hrest⟩ := ih hequal.wellFormed (htarget.mono hg₃.size_le)
      (fun d hd => (hforms.2 d hd).mono hg₃.size_le) h₄ hv fun d hd => by
        rw [← htarget.eval_congr hxv, ← (hforms.2 d hd).eval_congr hxv]
        exact hop.2 d hd
    refine ⟨t, hxv.trans (hvt.mono hg₃.size_le), ht, ?_⟩
    rintro ⟨d, hd, heq⟩
    rw [anyHold_cons]
    rcases List.mem_cons.1 hd with rfl | hd
    · exact .inl ((holds_congr htruth.column_lt
        (hzv.trans (hvt.mono hequal.grows.size_le))).1 (hw.2 heq))
    · refine .inr (hrest ⟨d, hd, ?_⟩)
      rwa [← htarget.eval_congr hxv, ← (hforms.2 d hd).eval_congr hxv]

/-- The target is beyond every form and equal to one of them. -/
theorem imposes_of_addExtremum (hp : p.WellFormed) (htarget : target.Below p.columns.size)
    (hforms : ∀ e ∈ forms, e.Below p.columns.size)
    (h : addExtremum target forms op p = .ok u q) :
    p.Imposes q fun x => (∀ e ∈ forms, op.Holds (target.eval x) (e.eval x)) ∧
      ∃ e ∈ forms, target.eval x = e.eval x := by
  simp only [addExtremum, bind_eq_ok] at h
  obtain ⟨ws, r, h₁, h₂⟩ := h
  have hwf := (steady_addWitnesses target op forms).wellFormed hp h₁
  have hgrows := (steady_addWitnesses target op forms).grows hp h₁
  have hclause :=
    imposes_of_addClause hwf (isTruth_of_addWitnesses hp h₁) (List.forall_mem_nil _) h₂
  refine ⟨hgrows.trans hclause.grows, hclause.wellFormed, fun x hx => ?_, fun x hx hn => ?_⟩
  · obtain ⟨hbeyond, hany⟩ := sound_of_addWitnesses hp h₁ (hclause.grows.solves hx)
    exact ⟨hbeyond, hany (hclause.sound x hx allHold_nil)⟩
  · obtain ⟨y, hxy, hy, hany⟩ := exists_of_addWitnesses hp htarget hforms h₁ hx hn.1
    obtain ⟨z, hyz, hz⟩ := hclause.complete y hy fun _ => hany hn.2
    exact ⟨z, hxy.trans (hyz.mono hgrows.size_le), hz⟩

/-! ## Selected items -/

theorem steady_selectEach (items : List Affine) (target : Affine) (guards : List Literal)
    (encoding : Encoding) : Steady (selectEach items target guards encoding) := by
  induction encoding with
  | nil => exact Keeps.pure _
  | cons entry rest ih =>
    obtain ⟨position, selected⟩ := entry
    unfold selectEach
    cases itemAt? items position with
    | some item => exact (steady_enforce _ _).bind fun _ => ih
    | none => exact (steady_addClause _ _).bind fun _ => ih

/-- The position is one of the list, and the target is the item there. -/
def IsItemAt (items : List Affine) (target : Affine) (position : Int) (x : Assignment) : Prop :=
  ∃ item, itemAt? items position = some item ∧ target.eval x = item.eval x

theorem local_isItemAt {n : Nat} {position : Int} (hitems : ∀ e ∈ items, e.Below n)
    (htarget : target.Below n) : Local n (IsItemAt items target position) := fun x y hxy =>
  exists_congr fun item => and_congr_right fun h => by
    rw [htarget.eval_congr hxy, (hitems item (mem_of_itemAt? h)).eval_congr hxy]

/-- One value of the index: its literal selects the item, and is false without one. -/
theorem imposes_of_selectOne {position : Int} {selected : Literal} (hp : p.WellFormed)
    (hg : ∀ g ∈ guards, p.IsTruth g) (hs : p.IsTruth selected)
    (h : (match itemAt? items position with
      | some item => enforce ⟨target, .eq, item⟩ (guards ++ [selected])
      | none => addClause [selected.negate] guards) p = .ok u q) :
    p.Imposes q fun x => AllHold guards x → selected.Holds x →
      IsItemAt items target position x := by
  unfold IsItemAt
  cases hitem : itemAt? items position with
  | some item =>
    rw [hitem] at h
    refine (imposes_of_enforce hp (areTruths_append hg hs) h).congr fun x _ => ?_
    simp [Relation.Holds, Comparison.Holds]
  | none =>
    rw [hitem] at h
    refine (imposes_of_addClause hp (by simpa using hs) hg h).congr fun x hx => ?_
    simp [hs.holds_negate hx]

theorem imposes_of_selectEach {encoding : Encoding} (hp : p.WellFormed)
    (hg : ∀ g ∈ guards, p.IsTruth g) (ht : ∀ entry ∈ encoding, p.IsTruth entry.2)
    (htarget : target.Below p.columns.size) (hitems : ∀ e ∈ items, e.Below p.columns.size)
    (h : selectEach items target guards encoding p = .ok u q) :
    p.Imposes q fun x => ∀ entry ∈ encoding, AllHold guards x → entry.2.Holds x →
      IsItemAt items target entry.1 x := by
  induction encoding generalizing p with
  | nil =>
    obtain ⟨-, rfl⟩ := pure_eq_ok.1 h
    exact Imposes.refl hp fun x _ => List.forall_mem_nil _
  | cons entry rest ih =>
    obtain ⟨position, selected⟩ := entry
    rw [List.forall_mem_cons] at ht
    obtain ⟨u', r, h₁, h₂⟩ : ∃ u' r, (match itemAt? items position with
        | some item => enforce ⟨target, .eq, item⟩ (guards ++ [selected])
        | none => addClause [selected.negate] guards) p = .ok u' r ∧
        selectEach items target guards rest r = .ok u q := by
      unfold selectEach at h
      cases hitem : itemAt? items position with
      | some item =>
        rw [hitem] at h
        exact bind_eq_ok.1 h
      | none =>
        rw [hitem] at h
        exact bind_eq_ok.1 h
    have hfirst := imposes_of_selectOne hp hg ht.1 h₁
    have hrest := ih hfirst.wellFormed (fun g hmem => (hg g hmem).mono hfirst.grows)
      (fun entry hmem => (ht.2 entry hmem).mono hfirst.grows)
      (htarget.mono hfirst.grows.size_le) (fun e he => (hitems e he).mono hfirst.grows.size_le) h₂
    refine (hfirst.trans hrest fun x y hxy => ?_).congr fun x _ => ?_
    · refine forall₂_congr fun entry hmem => imp_congr ?_ (imp_congr ?_ ?_)
      · exact local_allHold (fun g hmem => (hg g hmem).column_lt) x y hxy
      · exact holds_congr (ht.2 entry hmem).column_lt hxy
      · exact local_isItemAt hitems htarget x y hxy
    · rw [List.forall_mem_cons]

theorem steady_enforceElement (index : Affine) (items : List Affine) (target : Affine)
    (guards : List Literal) : Steady (enforceElement index items target guards) :=
  (steady_encode index).bind fun _ => steady_selectEach _ _ _ _

/-- The index is a position and the target the item there, where every guard is true. -/
theorem imposes_of_enforceElement (hp : p.WellFormed) (hg : ∀ g ∈ guards, p.IsTruth g)
    (hindex : index.Below p.columns.size) (htarget : target.Below p.columns.size)
    (hitems : ∀ e ∈ items, e.Below p.columns.size)
    (h : enforceElement index items target guards p = .ok u q) :
    p.Imposes q fun x => AllHold guards x → IsItemAt items target (index.eval x) x := by
  simp only [enforceElement, bind_eq_ok] at h
  obtain ⟨encoding, r, h₁, h₂⟩ := h
  obtain ⟨hencodes, hdefines⟩ := encodes_of_encode hp h₁
  have hgrows := hdefines.grows
  have heach := imposes_of_selectEach hdefines.wellFormed (fun g hmem => (hg g hmem).mono hgrows)
    hencodes.truth (htarget.mono hgrows.size_le) (fun e he => (hitems e he).mono hgrows.size_le) h₂
  refine Imposes.of_defines hdefines heach (fun x _ hselects => ?_) fun x y hxy => ?_
  · obtain ⟨⟨entry, hmem, heq⟩, hiff⟩ := hselects
    constructor
    · intro h hall
      rw [← heq]
      exact h entry hmem hall ((hiff entry hmem).2 heq)
    · intro h entry hmem hall hl
      rw [(hiff entry hmem).1 hl]
      exact h hall
  · refine imp_congr (local_allHold (fun g hmem => (hg g hmem).column_lt) x y hxy) ?_
    rw [hindex.eval_congr hxy]
    exact local_isItemAt hitems htarget x y hxy

end Linearization.Lowering
