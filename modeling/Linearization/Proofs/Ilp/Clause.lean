import Linearization.Ilp.Clause
import Linearization.Proofs.Ilp.Enforce

/-!
# Exactness of clauses and connectives

The number of true literals is the sum of their forms (`total_eq_countP`), so a clause is the row
that the sum is at least one and a parity the equation that the sum is odd. Conjunctions and
disjunctions are literals that are true exactly where all or some of theirs are.
-/

namespace Linearization.Lowering

open Ilp Literal

variable {p q : Ilp} {e d : Affine} {ls guards : List Literal} {l : Literal} {x : Assignment}
  {u : Unit}

/-! ## Sums of literals -/

/-- The sum of the forms of several literals. -/
def total (ls : List Literal) (x : Assignment) : Int := (ls.map fun l => l.toAffine.eval x).sum

theorem total_cons (l : Literal) (ls : List Literal) (x : Assignment) :
    total (l :: ls) x = l.toAffine.eval x + total ls x := rfl

theorem eval_of_sum (h : ls.foldlM (fun (e : Affine) l => e.plus l.toAffine) (.const 0) = .ok d)
    (x : Assignment) : d.eval x = total ls x := by
  have hvalue : d.eval x = 0 + 1 * total ls x := Affine.eval_of_foldlM (fun hplus => by
    rw [Affine.eval_of_plus hplus, Int.one_mul]) h
  omega

theorem total_eq_countP (hls : ∀ l ∈ ls, p.IsTruth l) (hx : p.Solves x) :
    total ls x = ls.countP (fun l => l.Holds x) := by
  induction ls with
  | nil => rfl
  | cons l ls ih =>
    rw [total_cons, ih fun k hk => hls k (List.mem_cons_of_mem _ hk), List.countP_cons,
      (hls l List.mem_cons_self).eval_eq_ofTruth hx]
    by_cases h : l.Holds x <;> simp [h, Int.add_comm]

/-- Some literal of the list is true. -/
def AnyHold (ls : List Literal) (x : Assignment) : Prop := ∃ l ∈ ls, l.Holds x

@[simp] theorem anyHold_nil : ¬ AnyHold [] x := by
  simp [AnyHold]

@[simp] theorem anyHold_cons : AnyHold (l :: ls) x ↔ l.Holds x ∨ AnyHold ls x := by
  simp [AnyHold]

@[simp] theorem anyHold_append {ks : List Literal} :
    AnyHold (ls ++ ks) x ↔ AnyHold ls x ∨ AnyHold ks x := by
  simp only [AnyHold, List.mem_append, or_and_right, exists_or]

theorem local_anyHold {n : Nat} (h : ∀ l ∈ ls, l.column < n) : Local n (AnyHold ls) :=
  fun _ _ hxy => exists_congr fun l => and_congr_right fun hl => holds_congr (h l hl) hxy

theorem one_le_total (hls : ∀ l ∈ ls, p.IsTruth l) (hx : p.Solves x) :
    1 ≤ total ls x ↔ AnyHold ls x := by
  rw [total_eq_countP hls hx]
  have hpos := List.countP_pos_iff (p := fun l : Literal => decide (l.Holds x)) (l := ls)
  simp only [decide_eq_true_eq] at hpos
  rw [AnyHold, ← hpos]
  omega

theorem countP_congr {n : Nat} {y : Assignment} (h : ∀ l ∈ ls, l.column < n)
    (hxy : AgreeBelow n x y) :
    ls.countP (fun l => l.Holds x) = ls.countP (fun l => l.Holds y) :=
  List.countP_congr fun l hl => by simpa using holds_congr (h l hl) hxy

/-! ## Clauses -/

theorem steady_addClause (ls guards : List Literal) : Steady (addClause ls guards) :=
  (steady_foldlM_liftM _ ls _).bind fun e => steady_enforceNonpositive e guards

/-- Some literal is true where every guard is. -/
theorem imposes_of_addClause (hp : p.WellFormed) (hls : ∀ l ∈ ls, p.IsTruth l)
    (hg : ∀ g ∈ guards, p.IsTruth g) (h : addClause ls guards p = .ok u q) :
    p.Imposes q fun x => AllHold guards x → AnyHold ls x := by
  unfold addClause at h
  simp only [bind_eq_ok, foldlM_liftM_eq_ok] at h
  obtain ⟨e, _, ⟨he, rfl⟩, h⟩ := h
  refine (imposes_of_enforceNonpositive hp hg h).congr fun x hx => imp_congr Iff.rfl ?_
  have hvalue : e.eval x = 1 + -1 * total ls x := Affine.eval_of_foldlM (fun hminus => by
    rw [Affine.eval_of_minus hminus]
    omega) he
  rw [hvalue, ← one_le_total hls hx]
  omega

theorem steady_addImplication (a b : Literal) : Steady (addImplication a b) :=
  steady_addClause _ _

theorem imposes_of_addImplication {a b : Literal} (hp : p.WellFormed) (ha : p.IsTruth a)
    (hb : p.IsTruth b) (h : addImplication a b p = .ok u q) :
    p.Imposes q fun x => a.Holds x → b.Holds x := by
  refine (imposes_of_addClause hp ?_ (List.forall_mem_nil _) h).congr fun x hx => ?_
  · simpa using ⟨ha, hb⟩
  · simp only [allHold_nil, forall_const, anyHold_cons, ha.holds_negate hx, anyHold_nil, or_false]
    exact Decidable.imp_iff_not_or.symm

/-! ## Parities -/

theorem steady_addParity (ls guards : List Literal) : Steady (addParity ls guards) := by
  unfold addParity
  split
  · exact steady_addClause _ _
  · exact (steady_auxiliaryInt _ _ _).bind fun half => (steady_foldlM_liftM _ ls _).bind fun sum =>
      (steady_liftM _).bind fun parity => steady_enforce _ _

/-- An odd number of literals is true where every guard is. -/
theorem imposes_of_addParity (hp : p.WellFormed) (hls : ∀ l ∈ ls, p.IsTruth l)
    (hg : ∀ g ∈ guards, p.IsTruth g) (h : addParity ls guards p = .ok u q) :
    p.Imposes q fun x => AllHold guards x → ls.countP (fun l => l.Holds x) % 2 = 1 := by
  unfold addParity at h
  split at h
  · rename_i hempty
    rw [List.isEmpty_iff.1 hempty]
    exact (imposes_of_addClause hp (List.forall_mem_nil _) hg h).congr fun x _ => by simp
  · rename_i hempty
    simp only [bind_eq_ok, liftM_eq_ok, foldlM_liftM_eq_ok] at h
    obtain ⟨half, q₁, h₁, sum, _, ⟨hsum, rfl⟩, parity, _, ⟨hparity, rfl⟩, h₂⟩ := h
    have hgrows := (steady_auxiliaryInt _ _ _).grows hp h₁
    have hodd : ∀ x, p.Solves x →
        parity.eval x = ls.countP (fun l => l.Holds x) - 2 * x half := fun x hx => by
      rw [Affine.eval_of_minus hparity, eval_of_sum hsum, Affine.eval_single,
        total_eq_countP hls hx]
    have hrow := imposes_of_enforce ((steady_auxiliaryInt _ _ _).wellFormed hp h₁)
      (fun g hmem => (hg g hmem).mono hgrows) h₂
    have hsolves := fun x hx => hgrows.solves (hrow.grows.solves (x := x) hx)
    refine (extends_of_auxiliaryInt hp h₁ hrow fun x hx hn => ?_).weaken
      fun x hx hrow hall => ?_
    · have hle : ls.countP (fun l => l.Holds x) ≤ ls.length := List.countP_le_length
      by_cases hall : AllHold guards x
      · refine ⟨((ls.countP (fun l => l.Holds x) - 1) / 2 : Nat), by omega, by omega, ?_⟩
        intro y hxy hy hhalf _
        show parity.eval y = (Affine.const 1).eval y
        have hcount := countP_congr (fun l hl => (hls l hl).column_lt) hxy
        have hn := hn hall
        rw [Affine.eval_const, hodd y (hgrows.solves hy), hhalf, ← hcount]
        omega
      · refine ⟨0, Int.le_refl 0, by omega, fun y hxy _ _ hy => absurd ?_ hall⟩
        exact (local_allHold (fun g hmem => (hg g hmem).column_lt) x y hxy).2 hy
    · have heq : parity.eval x = (Affine.const 1).eval x := hrow hall
      rw [Affine.eval_const, hodd x (hsolves x hx)] at heq
      omega

/-! ## Connectives -/

theorem anyHold_map_negate (hls : ∀ l ∈ ls, p.IsTruth l) (hx : p.Solves x) :
    AnyHold (ls.map negate) x ↔ ¬ AllHold ls x := by
  induction ls with
  | nil => simp
  | cons l ls ih =>
    rw [List.map_cons, anyHold_cons, allHold_cons, ih fun k hk => hls k (List.mem_cons_of_mem _ hk),
      (hls l List.mem_cons_self).holds_negate hx, not_and_or]

/-- Every literal of the list is under the same clause shape: `a` without it, or it without `a`. -/
theorem imposes_of_forM_addClause {f : Literal → List Literal} (hp : p.WellFormed)
    (hf : ∀ l ∈ ls, ∀ k ∈ f l, p.IsTruth k)
    (h : (ls.forM fun l => addClause (f l) []) p = .ok u q) :
    p.Imposes q fun x => ∀ l ∈ ls, AnyHold (f l) x := by
  refine imposes_of_forM hp (fun l hl s t u hs hwf ha => ?_)
    (fun l hl => local_anyHold fun k hk => (hf l hl k hk).column_lt) h
  exact (imposes_of_addClause hwf (fun k hk => (hf l hl k hk).mono hs) (List.forall_mem_nil _)
    ha).congr fun x _ => by simp

/-- The clauses of a gate say that its literal has the truth value of `C`. -/
structure Ties (p : Ilp) (single : Literal → Literal → List Literal)
    (whole : Literal → List Literal) (ls : List Literal) (C : Assignment → Prop) : Prop where
  each : ∀ l q, p.Grows q → q.IsTruth l → ∀ m ∈ ls, ∀ k ∈ single l m, q.IsTruth k
  all : ∀ l q, p.Grows q → q.IsTruth l → ∀ k ∈ whole l, q.IsTruth k
  means : ∀ l q x, p.Grows q → q.IsTruth l → q.Solves x →
    ((∀ m ∈ ls, AnyHold (single l m) x) ∧ AnyHold (whole l) x ↔ (l.Holds x ↔ C x))
  reads : Local p.columns.size C

theorem ties_all (hls : ∀ l ∈ ls, p.IsTruth l) :
    Ties p (fun all l => [all.negate, l]) (ls.map negate ++ [·]) ls (AllHold ls) where
  each l q hg hl m hm := by simpa using ⟨hl, (hls m hm).mono hg⟩
  all l q hg hl := by
    simpa [or_imp, forall_and] using ⟨fun m hm => (hls m hm).mono hg, hl⟩
  means l q x hg hl hx := by
    simp only [anyHold_cons, anyHold_append, anyHold_nil, or_false, hl.holds_negate hx,
      anyHold_map_negate (fun m hm => (hls m hm).mono hg) hx]
    by_cases hall : l.Holds x <;> simp [hall, AllHold]
  reads := local_allHold fun l hl => (hls l hl).column_lt

theorem ties_any (hls : ∀ l ∈ ls, p.IsTruth l) :
    Ties p (fun any l => [l.negate, any]) (ls ++ [·.negate]) ls (AnyHold ls) where
  each l q hg hl m hm := by simpa using ⟨(hls m hm).mono hg, hl⟩
  all l q hg hl := by
    simpa [or_imp, forall_and] using ⟨fun m hm => (hls m hm).mono hg, hl⟩
  means l q x hg hl hx := by
    simp only [anyHold_cons, anyHold_append, anyHold_nil, or_false, hl.holds_negate hx]
    have hnone : (∀ m ∈ ls, m.negate.Holds x) ↔ ¬ AnyHold ls x := by
      simp only [AnyHold, not_exists, not_and]
      exact forall₂_congr fun m hm => ((hls m hm).mono hg).holds_negate hx
    by_cases hany : l.Holds x
    · simp [hany]
    · simp [hany, hnone]
  reads := local_anyHold fun l hl => (hls l hl).column_lt

theorem reifies_of_gate {purpose : String} {single : Literal → Literal → List Literal}
    {whole : Literal → List Literal} {C : Assignment → Prop} (hp : p.WellFormed)
    (hC : Ties p single whole ls C) (h : gate purpose single whole ls p = .ok l q) :
    p.Reifies q l C := by
  simp only [gate, bind_eq_ok, pure_eq_ok] at h
  obtain ⟨m, q₁, hl, u, q₂, h₁, u', q₃, h₂, rfl, rfl⟩ := h
  have htruth := isTruth_of_auxiliaryBool hl
  have hgrows := (steady_auxiliaryBool _).grows hp hl
  have hks := hC.all m q₁ hgrows htruth
  have hfirst := imposes_of_forM_addClause ((steady_auxiliaryBool _).wellFormed hp hl)
    (hC.each m q₁ hgrows htruth) h₁
  have hlast := (imposes_of_addClause hfirst.wellFormed
    (fun k hk => (hks k hk).mono hfirst.grows) (List.forall_mem_nil _) h₂).congr
      (D := AnyHold (whole m)) fun x _ => by simp
  have hboth := (hfirst.trans hlast (local_anyHold fun k hk => (hks k hk).column_lt)).congr
    fun x hx => hC.means m q₁ x hgrows htruth hx
  refine ⟨htruth.mono hboth.grows,
    extends_of_auxiliaryBool hp hl hboth fun x hx _ => ⟨C x, fun y hxy _ hly => ?_⟩⟩
  exact hly.trans (hC.reads x y hxy)

theorem steady_gate (purpose : String) (single : Literal → Literal → List Literal)
    (whole : Literal → List Literal) (ls : List Literal) : Steady (gate purpose single whole ls) :=
  (steady_auxiliaryBool _).bind fun l => (Keeps.forM (fun _ => steady_addClause _ _) _).bind
    fun _ => (steady_addClause _ _).bind fun _ => Keeps.pure l

theorem steady_conjunction (ls : List Literal) : Steady (conjunction ls) := by
  unfold conjunction
  split
  · exact steady_constantLiteral true
  · exact Keeps.pure _
  · exact steady_gate _ _ _ _

theorem reifies_of_conjunction (hp : p.WellFormed) (hls : ∀ l ∈ ls, p.IsTruth l)
    (h : conjunction ls p = .ok l q) : p.Reifies q l (AllHold ls) := by
  unfold conjunction at h
  split at h
  · exact (reifies_of_constantLiteral hp h).congr fun x _ => by simp
  · obtain ⟨rfl, rfl⟩ := pure_eq_ok.1 h
    exact ⟨hls _ List.mem_cons_self, Extends.refl hp fun x _ => by simp⟩
  · exact reifies_of_gate hp (ties_all hls) h

theorem steady_disjunction (ls : List Literal) : Steady (disjunction ls) := by
  unfold disjunction
  split
  · exact steady_constantLiteral false
  · exact Keeps.pure _
  · exact steady_gate _ _ _ _

theorem reifies_of_disjunction (hp : p.WellFormed) (hls : ∀ l ∈ ls, p.IsTruth l)
    (h : disjunction ls p = .ok l q) : p.Reifies q l (AnyHold ls) := by
  unfold disjunction at h
  split at h
  · exact (reifies_of_constantLiteral hp h).congr fun x _ => by simp
  · obtain ⟨rfl, rfl⟩ := pure_eq_ok.1 h
    exact ⟨hls _ List.mem_cons_self, Extends.refl hp fun x _ => by simp⟩
  · exact reifies_of_gate hp (ties_any hls) h

end Linearization.Lowering
