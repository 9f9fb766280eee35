import Linearization.Proofs.Ilp.Spares

/-!
# Lowerings spare what they were asked for

Every lowering attempts its constraint (`attempts_enforce`, `attempts_addParity`,
`attempts_enforceDistinct`, …), and a lowering that gives a literal or an encoding excludes nothing,
wherever it fails (`attempts_reify`, `attempts_encode`).
-/

namespace Linearization.Lowering

open Ilp Literal

variable {p q : Ilp} {e d target index : Affine} {guards ls : List Literal} {l : Literal}
  {x y : Assignment} {r : Relation} {forms items : List Affine} {op : Comparison} {v : Lowered}

/-! ## Rows -/

theorem clean_trueLiteral : Clean trueLiteral := .of_ok exists_trueLiteral

theorem clean_trueLiteral_bind {α : Type} {f : Literal → Lowering α}
    (hf : ∀ l p, ∃ a q, f l p = .ok a q) : Clean (trueLiteral >>= f) := .of_ok fun p => by
  obtain ⟨l, r, hl⟩ := exists_trueLiteral p
  obtain ⟨a, q, hq⟩ := hf l r
  exact ⟨a, q, bind_eq_ok.2 ⟨l, r, hl, hq⟩⟩

theorem clean_constantLiteral (b : Bool) : Clean (constantLiteral b) :=
  clean_trueLiteral_bind fun _ _ => ⟨_, _, rfl⟩

theorem clean_addContradiction : Clean addContradiction :=
  clean_trueLiteral_bind fun _ _ => ⟨_, _, rfl⟩

theorem clean_addRow (row : Row) : Clean (addRow row) := .of_ok fun _ => ⟨_, _, rfl⟩

theorem clean_addUnlessImplied (implied : Int → Int → Bool) (least : Int → Option Int)
    (e : Affine) : Clean (addUnlessImplied implied least e) :=
  .bounds fun ⟨lower, upper⟩ => by
    dsimp only
    split
    · exact .pure _
    split
    · exact clean_addContradiction
    · exact .check fun side => clean_addRow _

theorem clean_enforceNonpositive (e : Affine) (guards : List Literal) :
    Clean (enforceNonpositive e guards) := .bounds fun ⟨lower, upper⟩ => by
  dsimp only
  split
  · exact .pure _
  · exact .check fun d => clean_addUnlessImplied _ _ d

theorem attempts_addZero (hp : p.WellFormed) :
    Attempts (addZero e) p (fun x => e.eval x = 0) fun _ x => e.eval x = 0 :=
  (clean_addUnlessImplied _ _ e).attempts fun _ _ h => imposes_of_addZero hp h

theorem attempts_enforceNonpositive (hp : p.WellFormed) (hg : ∀ g ∈ guards, p.IsTruth g) :
    Attempts (enforceNonpositive e guards) p (fun x => AllHold guards x → e.eval x ≤ 0)
      fun _ x => AllHold guards x → e.eval x ≤ 0 :=
  (clean_enforceNonpositive e guards).attempts fun _ _ h => imposes_of_enforceNonpositive hp hg h

theorem attempts_addClause (hp : p.WellFormed) (hls : ∀ l ∈ ls, p.IsTruth l)
    (hg : ∀ g ∈ guards, p.IsTruth g) :
    Attempts (addClause ls guards) p (fun x => AllHold guards x → AnyHold ls x)
      fun _ x => AllHold guards x → AnyHold ls x :=
  Clean.attempts (.checks (fun e => clean_enforceNonpositive e guards) ls _)
    fun _ _ h => imposes_of_addClause hp hls hg h

/-! ## Relations -/

theorem allHold_congr (hg : ∀ g ∈ guards, p.IsTruth g) (hxy : AgreeBelow p.columns.size x y) :
    AllHold guards x ↔ AllHold guards y :=
  local_allHold (fun g hmem => (hg g hmem).column_lt) x y hxy

/-- The form is not zero where every guard is true: one row where the bounds leave one sign, and
otherwise the literal of the sign and a row for each. -/
theorem attempts_enforceNonzero (hp : p.WellFormed) (hg : ∀ g ∈ guards, p.IsTruth g) :
    Attempts (enforceNonzero e guards) p (fun x => AllHold guards x → e.eval x ≠ 0)
      fun _ x => AllHold guards x → e.eval x ≠ 0 where
  succeeds _ _ h := imposes_of_enforceNonzero hp hg h
  spares x hx hn := by
    refine .bounds hx fun lower upper hb => ?_
    have hmem := mem_of_bounds hb hx
    dsimp only
    split
    · exact .pure _ hx
    split
    · refine .check hx fun n hneg => .check hx fun d hd => ?_
      refine (attempts_enforceNonpositive hp hg).spares x hx fun hall => ?_
      rw [Affine.eval_of_plus hd, Affine.eval_of_negated hneg, Affine.eval_const]
      have := hn hall
      omega
    split
    · refine .check hx fun d hd => (attempts_enforceNonpositive hp hg).spares x hx fun hall => ?_
      rw [Affine.eval_of_plus hd, Affine.eval_const]
      have := hn hall
      omega
    · -- The literal is chosen to be true where the form is negative.
      refine .auxiliaryBool hp hx (e.eval x < 0) fun l q y hgrows hq hl hxy hy hly => ?_
      have hgq : ∀ g ∈ guards, q.IsTruth g := fun g hmem => (hg g hmem).mono hgrows
      have hbelow : e.Below p.columns.size := below_of_bounds hb
      have hny : AllHold guards y → e.eval y ≠ 0 := by
        rw [← allHold_congr hg hxy, ← hbelow.eval_congr hxy]
        exact hn
      rw [hbelow.eval_congr hxy] at hly
      refine .check hy fun d hd => ?_
      refine .after (attempts_enforceNonpositive hq (areTruths_append hgq hl)) hy
        (fun hall => ?_) fun _ r z _ hgr hr hyz hz _ => ?_
      · rw [allHold_append, allHold_cons] at hall
        rw [Affine.eval_of_plus hd, Affine.eval_const]
        have := hly.1 hall.2.1
        omega
      · refine .check hz fun n hneg => .check hz fun d' hd' => ?_
        have hlr : r.IsTruth l := hl.mono hgr
        refine (attempts_enforceNonpositive hr (areTruths_append
          (fun g hmem => (hgq g hmem).mono hgr) (isTruth_negate.2 hlr))).spares z hz fun hall => ?_
        rw [allHold_append, allHold_cons, hlr.holds_negate hz, ← holds_congr hl.column_lt hyz,
          ← allHold_congr hgq hyz, hly] at hall
        rw [Affine.eval_of_plus hd', Affine.eval_of_negated hneg, Affine.eval_const,
          ← (hbelow.mono hgrows.size_le).eval_congr hyz]
        have := hny hall.1
        omega

/-- An equation is one row, or one row for each side where there are guards. -/
theorem attempts_zero (hp : p.WellFormed) (hg : ∀ g ∈ guards, p.IsTruth g) :
    Attempts (if guards.isEmpty then addZero e else do
      enforceNonpositive e guards
      enforceNonpositive (← e.negated) guards) p (fun x => AllHold guards x → e.eval x = 0)
      fun _ x => AllHold guards x → e.eval x = 0 where
  succeeds _ _ h := imposes_zero_of_enforce hp hg h
  spares x hx hn := by
    split
    · rename_i hempty
      refine (attempts_addZero hp).spares x hx (hn ?_)
      rw [List.isEmpty_iff.1 hempty]
      exact allHold_nil
    · refine .after (attempts_enforceNonpositive hp hg) hx
        (fun hall => Int.le_of_eq (hn hall)) fun _ q y hrun hgrows hq hxy hy _ => ?_
      refine .check hy fun n hneg => ?_
      refine (attempts_enforceNonpositive hq fun g hmem => (hg g hmem).mono hgrows).spares y hy
        fun hall => ?_
      rw [Affine.eval_of_negated hneg, ← (below_of_enforceNonpositive hrun).eval_congr hxy,
        hn ((allHold_congr hg hxy).2 hall)]
      exact Int.le_refl 0

theorem attempts_enforce (hp : p.WellFormed) (hg : ∀ g ∈ guards, p.IsTruth g) :
    Attempts (enforce r guards) p (fun x => AllHold guards x → r.Holds x)
      fun _ x => AllHold guards x → r.Holds x where
  succeeds _ _ h := imposes_of_enforce hp hg h
  spares x hx hn := by
    refine .check hx fun e he => ?_
    replace hn : AllHold guards x → r.op.Holds (e.eval x) 0 := fun hall =>
      (r.holds_iff_difference he x).1 (hn hall)
    obtain ⟨lhs, op, rhs⟩ := r
    have hrow {d : Affine} (hd : AllHold guards x → d.eval x ≤ 0) :
        Spares (enforceNonpositive d guards) p x :=
      (attempts_enforceNonpositive hp hg).spares x hx hd
    cases op with
    | le => exact hrow hn
    | lt =>
      refine .check hx fun d hd => hrow fun hall => ?_
      rw [Affine.eval_of_plus hd, Affine.eval_const]
      exact Int.add_one_le_iff.2 (hn hall)
    | ge =>
      refine .check hx fun n hneg => hrow fun hall => ?_
      have hge : 0 ≤ e.eval x := hn hall
      rw [Affine.eval_of_negated hneg]
      omega
    | gt =>
      refine .check hx fun n hneg => .check hx fun d hd => hrow fun hall => ?_
      have hgt : 0 < e.eval x := hn hall
      rw [Affine.eval_of_plus hd, Affine.eval_of_negated hneg, Affine.eval_const]
      omega
    | eq => exact (attempts_zero hp hg).spares x hx hn
    | ne => exact (attempts_enforceNonzero hp hg).spares x hx hn

theorem attempts_reify (hp : p.WellFormed) :
    Attempts (reify r) p (fun _ => True) fun l x => l.Holds x ↔ r.Holds x where
  succeeds _ _ h := (reifies_of_reify hp h).defines
  spares x hx _ := by
    refine .get (.check hx fun b hb => ?_)
    cases b with
    | some b =>
      exact ((clean_constantLiteral b).attempts fun _ _ h =>
        (reifies_of_constantLiteral hp h).defines).spares x hx trivial
    | none =>
      refine .auxiliaryBool hp hx (r.Holds x) fun l q y hgrows hq hl hxy hy hly => ?_
      have hlocal : Local p.columns.size r.Holds := local_of_truth hb
      refine .after (attempts_enforce hq (List.forall_mem_singleton.2 hl)) hy (fun hall => ?_)
        fun _ s z _ hgs hs hyz hz _ => ?_
      · exact (hlocal x y hxy).1 (hly.1 (allHold_cons.1 hall).1)
      · have hls : s.IsTruth l := hl.mono hgs
        refine .after (attempts_enforce hs (List.forall_mem_singleton.2 (isTruth_negate.2 hls))) hz
          (fun hall => ?_) fun _ _ _ _ _ _ _ hw _ => .pure _ hw
        have hfalse := (hls.holds_negate hz).1 (allHold_cons.1 hall).1
        rw [← holds_congr hl.column_lt hyz, hly] at hfalse
        rw [Relation.holds_negate]
        exact fun hr => hfalse ((hlocal x z (hxy.trans (hyz.mono hgrows.size_le))).2 hr)

/-! ## Parities and connectives -/

/-- Half of the number of true literals is a value of its column. -/
theorem attempts_addParity (hp : p.WellFormed) (hls : ∀ l ∈ ls, p.IsTruth l)
    (hg : ∀ g ∈ guards, p.IsTruth g) :
    Attempts (addParity ls guards) p
      (fun x => AllHold guards x → ls.countP (fun l => l.Holds x) % 2 = 1)
      fun _ x => AllHold guards x → ls.countP (fun l => l.Holds x) % 2 = 1 where
  succeeds _ _ h := imposes_of_addParity hp hls hg h
  spares x hx hn := by
    unfold addParity
    split
    · rename_i hempty
      refine (attempts_addClause hp (List.forall_mem_nil _) hg).spares x hx fun hall => ?_
      have hodd := hn hall
      rw [List.isEmpty_iff.1 hempty] at hodd
      cases hodd
    · have hle : ls.countP (fun l => l.Holds x) ≤ ls.length := List.countP_le_length
      let count := ls.countP fun l => l.Holds x
      refine .auxiliaryInt (v := ((count - 1) / 2 : Nat)) hp hx (by omega) (by omega)
        fun half q y hgrows hq _ _ hxy hy hhalf => ?_
      refine .checks hy fun sum hsum => .check hy fun parity hparity => ?_
      refine (attempts_enforce hq fun g hmem => (hg g hmem).mono hgrows).spares y hy fun hall => ?_
      have hodd : count % 2 = 1 := hn ((allHold_congr hg hxy).2 hall)
      have hcount := countP_congr (fun l hl => (hls l hl).column_lt) hxy
      show parity.eval y = (Affine.const 1).eval y
      rw [Affine.eval_of_minus hparity, eval_of_sum hsum, Affine.eval_const, Affine.eval_single,
        total_eq_countP (fun l hl => (hls l hl).mono hgrows) hy, ← hcount, hhalf]
      omega

/-- The new literal of a gate can be given the truth value its clauses say. -/
theorem spares_gate {purpose : String} {single : Literal → Literal → List Literal}
    {whole : Literal → List Literal} {C : Assignment → Prop} (hp : p.WellFormed)
    (hC : Ties p single whole ls C) (hx : p.Solves x) :
    Spares (gate purpose single whole ls) p x := by
  refine .auxiliaryBool hp hx (C x) fun l q y hgrows hq hl hxy hy hly => ?_
  have hsingle := hC.each l q hgrows hl
  have hwhole := hC.all l q hgrows hl
  obtain ⟨heach, hall⟩ := (hC.means l q y hgrows hl hy).2 (hly.trans (hC.reads x y hxy))
  have hclauses : Attempts (ls.forM fun m => addClause (single l m) []) q
      (fun y => ∀ m ∈ ls, AnyHold (single l m) y) fun _ y => ∀ m ∈ ls, AnyHold (single l m) y :=
    .forM hq (fun m hm r hr hwf => (attempts_addClause hwf
        (fun k hk => (hsingle m hm k hk).mono hr) (List.forall_mem_nil _)).congr
          fun _ _ => forall_prop_of_true allHold_nil)
      fun m hm => local_anyHold fun k hk => (hsingle m hm k hk).column_lt
  refine .after hclauses hy heach fun _ r z _ hgr hr hyz hz _ => ?_
  refine .after (attempts_addClause hr (fun k hk => (hwhole k hk).mono hgr)
    (List.forall_mem_nil _)) hz (fun _ => ?_) fun _ _ _ _ _ _ _ hw _ => .pure _ hw
  exact (local_anyHold (fun k hk => (hwhole k hk).column_lt) y z hyz).1 hall

theorem attempts_conjunction (hp : p.WellFormed) (hls : ∀ l ∈ ls, p.IsTruth l) :
    Attempts (conjunction ls) p (fun _ => True) fun l x => l.Holds x ↔ AllHold ls x where
  succeeds _ _ h := (reifies_of_conjunction hp hls h).defines
  spares x hx _ := by
    unfold conjunction
    split
    · exact ((clean_constantLiteral true).attempts fun _ _ h =>
        (reifies_of_constantLiteral hp h).defines).spares x hx trivial
    · exact .pure _ hx
    · exact spares_gate hp (ties_all hls) hx

theorem attempts_disjunction (hp : p.WellFormed) (hls : ∀ l ∈ ls, p.IsTruth l) :
    Attempts (disjunction ls) p (fun _ => True) fun l x => l.Holds x ↔ AnyHold ls x where
  succeeds _ _ h := (reifies_of_disjunction hp hls h).defines
  spares x hx _ := by
    unfold disjunction
    split
    · exact ((clean_constantLiteral false).attempts fun _ _ h =>
        (reifies_of_constantLiteral hp h).defines).spares x hx trivial
    · exact .pure _ hx
    · exact spares_gate hp (ties_any hls) hx

/-! ## Encodings -/

/-- The literals made so far stand on no row yet. -/
theorem spares_encodeFrom {count : Nat} {value : Int} {total channel : Affine} (hp : p.WellFormed)
    (hx : p.Solves x) : Spares (encodeFrom count value total channel) p x := by
  induction count generalizing p value total channel x with
  | zero => exact .pure _ hx
  | succ count ih =>
    refine .auxiliaryBool hp hx True fun l q y _ hq _ _ hy _ => ?_
    refine .check hy fun t _ => .check hy fun s _ => .check hy fun c _ => ?_
    refine .bind (ih hq hy) fun rest r hrun => ?_
    obtain ⟨rest, t', c'⟩ := rest
    obtain ⟨z, hyz, hz, -⟩ := exists_of_encodeFrom hq hrun hy 0
    exact ⟨(steady_encodeFrom _ _ _ _).grows hq hrun, z, hyz, .pure _ hz⟩

/-- The literals of an encoding may single out the value of the form, wherever the making of the
encoding fails. -/
theorem attempts_encode (hp : p.WellFormed) :
    Attempts (encode e) p (fun _ => True) fun encoding x => encoding.Selects x (e.eval x) where
  succeeds _ _ h := (encodes_of_encode hp h).2
  spares x hx _ := by
    refine .bounds hx fun lower upper hb => ?_
    dsimp only
    split
    · exact .after (clean_trueLiteral.attempts fun _ _ h => defines_of_trueLiteral hp h) hx trivial
        fun _ _ _ _ _ _ _ hy _ => .pure _ hy
    refine .get ?_
    cases p.encoding? e with
    | some encoding => exact .pure _ hx
    | none =>
      dsimp only
      split
      · exact .throw _ hx
      split
      · exact .throw _ hx
      refine .bind (spares_encodeFrom hp hx) fun made q hrun => ?_
      obtain ⟨encoding, total, channel⟩ := made
      have hgrows := (steady_encodeFrom _ _ _ _).grows hp hrun
      have hq := (steady_encodeFrom _ _ _ _).wellFormed hp hrun
      obtain ⟨y, hxy, hy, hselects⟩ := exists_selects_of_encodeFrom hp hb hrun hx
      refine ⟨hgrows, y, hxy, .check hy fun d hd => ?_⟩
      have hrows := (selects_iff_of_encodeFrom hp hrun hd hy).1 hselects
      refine .after (attempts_addZero hq) hy hrows.1 fun _ r z _ hgr hr hyz hz _ => ?_
      have hzselects := (local_selects ((below_of_bounds hb).mono hgrows.size_le)
        (literals_of_encodeFrom hp hrun).2 y z hyz).1 hselects
      have hzrows := (selects_iff_of_encodeFrom hp hrun hd (hgr.solves hz)).1 hzselects
      exact .after (attempts_addZero hr) hz hzrows.2 fun _ s w _ _ _ _ hw _ => ⟨w, .refl _ w, hw⟩

/-! ## Distinct values -/

theorem attempts_enforceDiffers (hp : p.WellFormed) (hg : ∀ g ∈ guards, p.IsTruth g)
    (he : e.Below p.columns.size) (hforms : ∀ d ∈ forms, d.Below p.columns.size) :
    Attempts (enforceDiffers e forms guards) p
      (fun x => ∀ d ∈ forms, AllHold guards x → e.eval x ≠ d.eval x)
      fun _ x => ∀ d ∈ forms, AllHold guards x → e.eval x ≠ d.eval x := by
  refine .forM hp (fun d _ q hgrows hq => ?_) fun d hd => ?_
  · exact attempts_enforce hq fun g hmem => (hg g hmem).mono hgrows
  · exact (local_allHold fun g hmem => (hg g hmem).column_lt).imp
      (Relation.local_holds (r := ⟨e, .ne, d⟩) ⟨he, hforms d hd⟩)

theorem attempts_enforceDistinct (hp : p.WellFormed) (hg : ∀ g ∈ guards, p.IsTruth g)
    (hforms : ∀ d ∈ forms, d.Below p.columns.size) :
    Attempts (enforceDistinct guards forms) p
      (fun x => AllHold guards x → forms.Pairwise fun a b => a.eval x ≠ b.eval x)
      fun _ x => AllHold guards x → forms.Pairwise fun a b => a.eval x ≠ b.eval x where
  succeeds _ _ h := imposes_of_enforceDistinct hp hg hforms h
  spares x hx hn := by
    induction forms generalizing p x with
    | nil => exact .pure _ hx
    | cons e forms ih =>
      rw [List.forall_mem_cons] at hforms
      refine .after (attempts_enforceDiffers hp hg hforms.1 hforms.2) hx
        (fun d hd hall => (List.pairwise_cons.1 (hn hall)).1 d hd)
        fun _ q y _ hgrows hq hxy hy _ => ?_
      refine ih hq (fun g hmem => (hg g hmem).mono hgrows)
        (fun d hd => (hforms.2 d hd).mono hgrows.size_le) y hy fun hall => ?_
      have hrest := (List.pairwise_cons.1 (hn ((allHold_congr hg hxy).2 hall))).2
      refine hrest.imp_of_mem fun {a b} ha hb hne => ?_
      rwa [← (hforms.2 a ha).eval_congr hxy, ← (hforms.2 b hb).eval_congr hxy]

/-! ## Extrema -/

/-- Where the target is beyond every form, the witness of a form is chosen to be true where the
target equals it. -/
theorem spares_addWitnesses (hp : p.WellFormed) (htarget : target.Below p.columns.size)
    (hforms : ∀ d ∈ forms, d.Below p.columns.size) (hx : p.Solves x)
    (hn : ∀ d ∈ forms, op.Holds (target.eval x) (d.eval x)) :
    Spares (addWitnesses target op forms) p x := by
  induction forms generalizing p x with
  | nil => exact .pure _ hx
  | cons d forms ih =>
    rw [List.forall_mem_cons] at hforms hn
    refine .after (attempts_enforce hp (List.forall_mem_nil _)) hx (fun _ => hn.1)
      fun _ q y _ hgq hq hxy hy _ => ?_
    refine .auxiliaryBool hq hy (target.eval y = d.eval y) fun w r z hgr hr hw hyz hz hwz => ?_
    have hg := hgq.trans hgr
    have hxz := hxy.trans (hyz.mono hgq.size_le)
    refine .after (attempts_enforce hr (List.forall_mem_singleton.2 hw)) hz (fun hall => ?_)
      fun _ s v _ hgs hs hzv hv _ => ?_
    · show target.eval z = d.eval z
      rw [← (htarget.mono hgq.size_le).eval_congr hyz,
        ← (hforms.1.mono hgq.size_le).eval_congr hyz]
      exact hwz.1 (allHold_cons.1 hall).1
    · have hall := hg.trans hgs
      have hxv := hxz.trans (hzv.mono hg.size_le)
      have hnv : ∀ d ∈ forms, op.Holds (target.eval v) (d.eval v) := fun d hd => by
        rw [← htarget.eval_congr hxv, ← (hforms.2 d hd).eval_congr hxv]
        exact hn.2 d hd
      have htv := htarget.mono hall.size_le
      have hformsv : ∀ d ∈ forms, d.Below s.columns.size := fun d hd =>
        (hforms.2 d hd).mono hall.size_le
      refine .bind (ih hs htv hformsv hv hnv) fun rest t hrun => ?_
      obtain ⟨u, hvu, hu, -⟩ := exists_of_addWitnesses hs htv hformsv hrun hv hnv
      exact ⟨(steady_addWitnesses _ _ _).grows hs hrun, u, hvu, .pure _ hu⟩

/-- The target is beyond every form and equal to one of them. -/
theorem attempts_addExtremum (hp : p.WellFormed) (htarget : target.Below p.columns.size)
    (hforms : ∀ d ∈ forms, d.Below p.columns.size) :
    Attempts (addExtremum target forms op) p
      (fun x => (∀ d ∈ forms, op.Holds (target.eval x) (d.eval x)) ∧
        ∃ d ∈ forms, target.eval x = d.eval x)
      fun _ x => (∀ d ∈ forms, op.Holds (target.eval x) (d.eval x)) ∧
        ∃ d ∈ forms, target.eval x = d.eval x where
  succeeds _ _ h := imposes_of_addExtremum hp htarget hforms h
  spares x hx hn := by
    refine .bind (spares_addWitnesses hp htarget hforms hx hn.1) fun ws q hrun => ?_
    obtain ⟨y, hxy, hy, hany⟩ := exists_of_addWitnesses hp htarget hforms hrun hx hn.1
    refine ⟨(steady_addWitnesses _ _ _).grows hp hrun, y, hxy, ?_⟩
    exact (attempts_addClause ((steady_addWitnesses _ _ _).wellFormed hp hrun)
      (isTruth_of_addWitnesses hp hrun) (List.forall_mem_nil _)).spares y hy fun _ => hany hn.2

/-! ## Selected items -/

theorem attempts_selectOne (items : List Affine) (target : Affine) (position : Int)
    {selected : Literal} (hp : p.WellFormed) (hg : ∀ g ∈ guards, p.IsTruth g)
    (hs : p.IsTruth selected) :
    Attempts (match itemAt? items position with
      | some item => enforce ⟨target, .eq, item⟩ (guards ++ [selected])
      | none => addClause [selected.negate] guards) p
      (fun x => AllHold guards x → selected.Holds x → IsItemAt items target position x)
      fun _ x => AllHold guards x → selected.Holds x → IsItemAt items target position x := by
  cases hitem : itemAt? items position with
  | some item =>
    refine (attempts_enforce hp (areTruths_append hg hs)).congr fun x _ => ?_
    simp [Relation.Holds, Comparison.Holds, IsItemAt, hitem]
  | none =>
    refine (attempts_addClause hp (List.forall_mem_singleton.2 (isTruth_negate.2 hs)) hg).congr
      fun x hx => ?_
    simp [hs.holds_negate hx, IsItemAt, hitem]

theorem spares_selectEach {encoding : Encoding} (hp : p.WellFormed)
    (hg : ∀ g ∈ guards, p.IsTruth g) (ht : ∀ entry ∈ encoding, p.IsTruth entry.2)
    (htarget : target.Below p.columns.size) (hitems : ∀ d ∈ items, d.Below p.columns.size)
    (hx : p.Solves x) (hn : ∀ entry ∈ encoding, AllHold guards x → entry.2.Holds x →
      IsItemAt items target entry.1 x) :
    Spares (selectEach items target guards encoding) p x := by
  induction encoding generalizing p x with
  | nil => exact .pure _ hx
  | cons entry rest ih =>
    obtain ⟨position, selected⟩ := entry
    rw [List.forall_mem_cons] at ht hn
    have hone := attempts_selectOne items target position hp hg ht.1
    have hrest {q : Ilp} {y : Assignment} (hgrows : p.Grows q) (hq : q.WellFormed)
        (hxy : AgreeBelow p.columns.size x y) (hy : q.Solves y) :
        Spares (selectEach items target guards rest) q y := by
      refine ih hq (fun g hmem => (hg g hmem).mono hgrows)
        (fun entry hmem => (ht.2 entry hmem).mono hgrows) (htarget.mono hgrows.size_le)
        (fun d hd => (hitems d hd).mono hgrows.size_le) hy fun entry hmem hall hl => ?_
      rw [← local_isItemAt hitems htarget x y hxy]
      exact hn.2 entry hmem ((allHold_congr hg hxy).2 hall)
        ((holds_congr (ht.2 entry hmem).column_lt hxy).2 hl)
    unfold selectEach
    cases hitem : itemAt? items position with
    | some item =>
      rw [hitem] at hone
      exact .after hone hx hn.1 fun _ q y _ hgrows hq hxy hy _ => hrest hgrows hq hxy hy
    | none =>
      rw [hitem] at hone
      exact .after hone hx hn.1 fun _ q y _ hgrows hq hxy hy _ => hrest hgrows hq hxy hy

/-- The index is a position and the target the item there, where every guard is true. -/
theorem attempts_enforceElement (hp : p.WellFormed) (hg : ∀ g ∈ guards, p.IsTruth g)
    (hindex : index.Below p.columns.size) (htarget : target.Below p.columns.size)
    (hitems : ∀ d ∈ items, d.Below p.columns.size) :
    Attempts (enforceElement index items target guards) p
      (fun x => AllHold guards x → IsItemAt items target (index.eval x) x)
      fun _ x => AllHold guards x → IsItemAt items target (index.eval x) x where
  succeeds _ _ h := imposes_of_enforceElement hp hg hindex htarget hitems h
  spares x hx hn := by
    refine .after (attempts_encode hp) hx trivial
      fun encoding q y hrun hgrows hq hxy hy hselects => ?_
    refine spares_selectEach hq (fun g hmem => (hg g hmem).mono hgrows)
      (encodes_of_encode hp hrun).1.truth (htarget.mono hgrows.size_le)
      (fun d hd => (hitems d hd).mono hgrows.size_le) hy fun entry hmem hall hl => ?_
    rw [(hselects.2 entry hmem).1 hl, ← hindex.eval_congr hxy,
      ← local_isItemAt hitems htarget x y hxy]
    exact hn ((allHold_congr hg hxy).2 hall)

/-! ## Coercions -/

theorem attempts_booleanView (hp : p.WellFormed) :
    Attempts (booleanView e) p (fun _ => True) fun l x => l.Holds x ↔ e.eval x ≠ 0 where
  succeeds _ _ h := (reifies_of_booleanView hp h).defines
  spares x hx _ := by
    refine .get (.check hx fun view _ => ?_)
    cases view with
    | some l => exact .pure _ hx
    | none =>
      refine .bounds hx fun lower upper hb => ?_
      dsimp only
      split
      · exact (attempts_reify hp).spares x hx trivial
      · exact .throw _ hx

theorem attempts_affineOf (hp : p.WellFormed) :
    Attempts (affineOf v) p (fun _ => True) fun form x => v.value? x = some (form.eval x) where
  succeeds _ _ h := defines_of_affineOf hp h
  spares x hx _ := by
    cases v with
    | relation r =>
      exact .after (attempts_reify hp) hx trivial fun _ _ _ _ _ _ _ hy _ => .pure _ hy
    | sequence items => exact .throw _ hx
    | _ => exact .pure _ hx

theorem attempts_literalOf (hp : p.WellFormed) (hv : v.Over p) :
    Attempts (literalOf v) p (fun _ => True) fun l x =>
      (l.Holds x ↔ ∃ n, v.value? x = some n ∧ n ≠ 0) where
  succeeds _ _ h := (reifies_of_literalOf hp hv h).defines
  spares x hx _ := by
    cases v with
    | const c =>
      exact ((clean_constantLiteral _).attempts fun _ _ h =>
        (reifies_of_constantLiteral hp h).defines).spares x hx trivial
    | literal l => exact .pure _ hx
    | column i => exact (attempts_booleanView hp).spares x hx trivial
    | affine e => exact (attempts_booleanView hp).spares x hx trivial
    | relation r => exact (attempts_reify hp).spares x hx trivial
    | sequence items => exact .throw _ hx

end Linearization.Lowering
