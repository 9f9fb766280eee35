import Linearization.Proofs.Corresponds
import Linearization.Proofs.Following
import Linearization.Proofs.Ilp.Incidental
import Linearization.Proofs.Ilp.Range
import Linearization.Proofs.Ilp.Structure

/-!
# Programs with matched columns

Two programs that were built in different orders have columns that stand for the same things, at
different places and between columns that only one of them has. `p.Matched roles M p'` says that the
columns paired by `M` have the same bounds, and that what has one column in every program has
matched ones: the true column, and what `roles` lists. Such a column may be missing so far; when it
appears, it becomes the partner of the one that is there already (`Matched.grow_left`).

Forms that correspond under the matching have the same bounds, are the same constants and are viewed
as corresponding literals, since all of these are properties of their values. So the elementary
steps of lowerings of corresponding arguments track each other (`Lowering.Tracks`).
-/

namespace Linearization

open Lowering

variable {roles : Option Nat → Option Nat → Prop} {M N : Matching Nat} {p p' q q' : Ilp}
  {i j : Nat} {c d : Column}

namespace Ilp

/-- The program is well-formed, and its true column is the only one of its kind. -/
structure Regular (p : Ilp) : Prop where
  wellFormed : p.WellFormed
  marksTrue : p.MarksTrue

/-- The column exists and is not the true column. -/
def Ordinary (p : Ilp) (i : Nat) : Prop := ∃ c, p.columns[i]? = some c ∧ c ≠ .alwaysTrue

theorem Ordinary.mono (h : p.Ordinary i) (hg : p.Grows q) : q.Ordinary i := by
  obtain ⟨c, hc, hne⟩ := h
  exact ⟨c, hg.column hc, hne⟩

theorem Ordinary.lt (h : p.Ordinary i) : i < p.columns.size := by
  obtain ⟨c, hc, -⟩ := h
  exact (Array.getElem?_eq_some_iff.1 hc).1

theorem Ordinary.ne_trueColumn (h : p.Ordinary i) (hp : p.Regular) : p.trueColumn ≠ some i := by
  intro htrue
  obtain ⟨c, hc, hne⟩ := h
  rw [(hp.marksTrue i).2 htrue] at hc
  cases hc
  exact hne rfl

theorem Regular.withColumn (hp : p.Regular) (hc : c ≠ .alwaysTrue) : (p.withColumn c).Regular :=
  ⟨hp.wellFormed.withColumn c, hp.marksTrue.withColumn hc⟩

theorem Regular.trueColumn_ne_size (hp : p.Regular) : p.trueColumn ≠ some p.columns.size := by
  intro htrue
  obtain ⟨c, hc, -⟩ := hp.wellFormed.trueColumn _ htrue
  exact Nat.lt_irrefl _ (Array.getElem?_eq_some_iff.1 hc).1

/-- While a program grows, a true column appears where there was no column. -/
theorem Regular.size_le_trueColumn (hp : p.Regular) (hq : q.Regular) (hg : p.Grows q)
    (hnone : p.trueColumn = none) (hi : q.trueColumn = some i) : p.columns.size ≤ i := by
  by_contra hlt
  have hc := Array.getElem?_eq_getElem (Nat.not_le.1 hlt)
  have hmark := (hq.marksTrue i).2 hi
  rw [hg.column hc, Option.some_inj] at hmark
  rw [hmark, hp.marksTrue i, hnone] at hc
  cases hc

/-- Both columns exist and have the same bounds. -/
def SameColumn (p p' : Ilp) (i j : Nat) : Prop :=
  ∃ c d, p.columns[i]? = some c ∧ p'.columns[j]? = some d ∧ c.lower = d.lower ∧ c.upper = d.upper

theorem SameColumn.flip (h : p.SameColumn p' i j) : p'.SameColumn p j i := by
  obtain ⟨c, d, hc, hd, hlower, hupper⟩ := h
  exact ⟨d, c, hd, hc, hlower.symm, hupper.symm⟩

theorem SameColumn.mono (h : p.SameColumn p' i j) (hg : p.Grows q) (hg' : p'.Grows q') :
    q.SameColumn q' i j := by
  obtain ⟨c, d, hc, hd, hbounds⟩ := h
  exact ⟨c, d, hg.column hc, hg'.column hd, hbounds⟩

/-- The paired columns of the programs have the same bounds, and what has one column in every
program has matched ones. -/
structure Matched (roles : Option Nat → Option Nat → Prop) (M : Matching Nat) (p p' : Ilp) :
    Prop where
  left : p.Regular
  right : p'.Regular
  limit : p.enumerationLimit = p'.enumerationLimit
  columns : ∀ i j, M.Pairs i j → p.SameColumn p' i j
  truth : M.Meets p.trueColumn p'.trueColumn
  meets : ∀ o o', roles o o' → M.Meets o o'
  ordinary : ∀ o o', roles o o' →
    (∀ i, o = some i → p.Ordinary i) ∧ ∀ j, o' = some j → p'.Ordinary j

namespace Matched

theorem flip (h : p.Matched roles M p') : p'.Matched (Function.swap roles) M.flip p where
  left := h.right
  right := h.left
  limit := h.limit.symm
  columns i j hij := (h.columns j i hij).flip
  truth := h.truth.flip
  meets o o' hroles := (h.meets o' o hroles).flip
  ordinary o o' hroles := (h.ordinary o' o hroles).symm

theorem freeLeft (h : p.Matched roles M p') (hi : p.columns.size ≤ i) : M.FreeLeft i := by
  intro j hij
  obtain ⟨c, d, hc, -⟩ := h.columns i j hij
  exact absurd (Array.getElem?_eq_some_iff.1 hc).1 (Nat.not_lt.2 hi)

theorem freeRight (h : p.Matched roles M p') (hj : p'.columns.size ≤ j) : M.FreeRight j :=
  h.flip.freeLeft hj

/-! ## Growth -/

/-- Growth that leaves the true column alone changes nothing that is matched. -/
theorem grow_of_trueColumn (h : p.Matched roles M p') (hg : p.Grows q) (hq : q.Regular)
    (htrue : q.trueColumn = p.trueColumn) : q.Matched roles M p' where
  left := hq
  right := h.right
  limit := hg.enumerationLimit.trans h.limit
  columns i j hij := (h.columns i j hij).mono hg (.refl p')
  truth := htrue ▸ h.truth
  meets := h.meets
  ordinary o o' hroles :=
    ⟨fun i hi => ((h.ordinary o o' hroles).1 i hi).mono hg, (h.ordinary o o' hroles).2⟩

theorem sameColumn_of_trueColumn (hp : p.WellFormed) (hp' : p'.WellFormed)
    (hi : p.trueColumn = some i) (hj : p'.trueColumn = some j) : p.SameColumn p' i j := by
  obtain ⟨c, hc, hlower, hupper⟩ := hp.trueColumn i hi
  obtain ⟨d, hd, hlower', hupper'⟩ := hp'.trueColumn j hj
  exact ⟨c, d, hc, hd, hlower.trans hlower'.symm, hupper.trans hupper'.symm⟩

/-- The program on the left may grow. If it gets its true column, that of the other program becomes
the partner. -/
theorem grow_left (h : p.Matched roles M p') (hg : p.Grows q) (hq : q.Regular) :
    ∃ N, M ≤ N ∧ q.Matched roles N p' := by
  cases hp : p.trueColumn with
  | some i =>
    exact ⟨M, le_refl M, h.grow_of_trueColumn hg hq ((hg.trueColumn i hp).trans hp.symm)⟩
  | none =>
    cases hi : q.trueColumn with
    | none => exact ⟨M, le_refl M, h.grow_of_trueColumn hg hq (hi.trans hp.symm)⟩
    | some i =>
      have hfresh := h.left.size_le_trueColumn hq hg hp hi
      have htruth := h.truth
      rw [hp] at htruth
      obtain ⟨N, hMN, hmeets, hnew, hold⟩ := htruth.appear (h.freeLeft hfresh)
      refine ⟨N, hMN, hq, h.right, hg.enumerationLimit.trans h.limit, fun l j hlj => ?_,
        hi ▸ hmeets, fun o o' hroles => ?_, fun o o' hroles => ?_⟩
      · rcases hnew l j hlj with hlj | ⟨rfl, hj⟩
        · exact (h.columns l j hlj).mono hg (.refl p')
        · exact sameColumn_of_trueColumn hq.wellFormed h.right.wellFormed hi hj
      · obtain ⟨hleft, hright⟩ := h.ordinary o o' hroles
        refine hold o o' (h.meets o o' hroles) (fun ho => ?_) ?_
        · have := (hleft i ho).lt
          omega
        · cases o' with
          | none => exact .inr rfl
          | some j => exact .inl ((hright j rfl).ne_trueColumn h.right).symm
      · exact ⟨fun l hl => ((h.ordinary o o' hroles).1 l hl).mono hg, (h.ordinary o o' hroles).2⟩

theorem grow_right (h : p.Matched roles M p') (hg : p'.Grows q') (hq : q'.Regular) :
    ∃ N, M ≤ N ∧ p.Matched roles N q' := by
  obtain ⟨N, hMN, hmatched⟩ := h.flip.grow_left hg hq
  exact ⟨N.flip, Matching.flip_mono hMN, hmatched.flip⟩

theorem pair_withColumn (h : p.Matched roles M p') (hc : c ≠ .alwaysTrue) (hd : d ≠ .alwaysTrue)
    (hlower : c.lower = d.lower) (hupper : c.upper = d.upper) :
    ∃ N, M ≤ N ∧ N.Pairs p.columns.size p'.columns.size ∧
      (p.withColumn c).Matched roles N (p'.withColumn d) := by
  have hleft := h.freeLeft (Nat.le_refl _)
  have hright := h.freeRight (Nat.le_refl _)
  have hgrows := p.grows_withColumn c
  have hgrows' := p'.grows_withColumn d
  refine ⟨M.insert _ _ hleft hright, Matching.le_insert hleft hright,
    Matching.pairs_insert hleft hright, h.left.withColumn hc, h.right.withColumn hd, h.limit,
    fun l k hlk => ?_, h.truth.insert h.left.trueColumn_ne_size h.right.trueColumn_ne_size,
    fun o o' hroles => ?_, fun o o' hroles => ?_⟩
  · rcases hlk with hlk | ⟨rfl, rfl⟩
    · exact (h.columns l k hlk).mono hgrows hgrows'
    · exact ⟨c, d, p.getElem?_withColumn_size c, p'.getElem?_withColumn_size d, hlower, hupper⟩
  · obtain ⟨hordinary, hordinary'⟩ := h.ordinary o o' hroles
    exact (h.meets o o' hroles).insert (fun ho => Nat.lt_irrefl _ (hordinary _ ho).lt)
      fun ho' => Nat.lt_irrefl _ (hordinary' _ ho').lt
  · obtain ⟨hordinary, hordinary'⟩ := h.ordinary o o' hroles
    exact ⟨fun l hl => (hordinary l hl).mono hgrows, fun l hl => (hordinary' l hl).mono hgrows'⟩

/-! ## Roles -/

variable {roles' : Option Nat → Option Nat → Prop}

theorem imp_roles (h : p.Matched roles M p') (himp : ∀ o o', roles' o o' → roles o o') :
    p.Matched roles' M p' where
  left := h.left
  right := h.right
  limit := h.limit
  columns := h.columns
  truth := h.truth
  meets o o' hroles := h.meets o o' (himp o o' hroles)
  ordinary o o' hroles := h.ordinary o o' (himp o o' hroles)

theorem add_role (h : p.Matched roles M p') (hij : M.Pairs i j) (hi : p.Ordinary i)
    (hj : p'.Ordinary j)
    (hroles : ∀ o o', roles' o o' → roles o o' ∨ o = some i ∧ o' = some j) :
    p.Matched roles' M p' where
  left := h.left
  right := h.right
  limit := h.limit
  columns := h.columns
  truth := h.truth
  meets o o' hrole := by
    rcases hroles o o' hrole with hold | ⟨rfl, rfl⟩
    · exact h.meets o o' hold
    · exact .of_pairs hij
  ordinary o o' hrole := by
    rcases hroles o o' hrole with hold | ⟨rfl, rfl⟩
    · exact h.ordinary o o' hold
    · exact ⟨fun l hl => Option.some.inj hl ▸ hi, fun l hl => Option.some.inj hl ▸ hj⟩

/-- A new column on the left takes over a role that no column has had there. The column that has the
role on the right, if there is one, becomes its partner. -/
theorem fill_role (h : p.Matched roles M p') (hc : c ≠ .alwaysTrue) {filled : Option Nat}
    (hrole : roles none filled)
    (hcolumn : ∀ j, filled = some j → (p.withColumn c).SameColumn p' p.columns.size j)
    (hroles : ∀ o o', roles' o o' → o = some p.columns.size ∧ o' = filled ∨
      roles o o' ∧ (o' ≠ filled ∨ o' = none)) :
    ∃ N, M ≤ N ∧ (p.withColumn c).Matched roles' N p' := by
  have hgrows := p.grows_withColumn c
  obtain ⟨N, hMN, hmeets, hnew, hold⟩ :=
    (h.meets none filled hrole).appear (h.freeLeft (Nat.le_refl _))
  have hordinary := h.ordinary none filled hrole
  refine ⟨N, hMN, h.left.withColumn hc, h.right, h.limit, fun l k hlk => ?_,
    hold _ _ h.truth h.left.trueColumn_ne_size ?_, fun o o' hr => ?_, fun o o' hr => ?_⟩
  · rcases hnew l k hlk with hlk | ⟨rfl, hk⟩
    · exact (h.columns l k hlk).mono hgrows (.refl p')
    · exact hcolumn k hk
  · cases hj : p'.trueColumn with
    | none => exact .inr rfl
    | some j => exact .inl fun heq => (hordinary.2 j heq.symm).ne_trueColumn h.right hj
  · rcases hroles o o' hr with ⟨rfl, rfl⟩ | ⟨hr, hne⟩
    · exact hmeets
    · refine hold o o' (h.meets o o' hr) (fun ho => ?_) hne
      exact Nat.lt_irrefl _ ((h.ordinary o o' hr).1 _ ho).lt
  · rcases hroles o o' hr with ⟨rfl, rfl⟩ | ⟨hr, -⟩
    · refine ⟨fun l hl => ?_, hordinary.2⟩
      cases hl
      exact ⟨c, p.getElem?_withColumn_size c, hc⟩
    · exact ⟨fun l hl => ((h.ordinary o o' hr).1 l hl).mono hgrows, (h.ordinary o o' hr).2⟩

/-! ## What is read off a form -/

variable {e e' : Affine} {x y : Assignment} {b b' : Int × Int}

/-- Values between the bounds on the left can be carried over to the right. -/
theorem exists_spans (h : p.Matched roles M p') (hx : p.Spans x) :
    ∃ y, p'.Spans y ∧ M.Agree x y := by
  obtain ⟨z, hz⟩ := p'.exists_spans
  obtain ⟨y, hxy, hfree⟩ := Matching.Agree.exists_right M x z
  refine ⟨y, fun j d hd => ?_, hxy⟩
  by_cases hj : M.FreeRight j
  · rw [hfree j hj]
    exact hz j d hd
  · obtain ⟨i, hij⟩ := not_forall_not.1 hj
    obtain ⟨c, d', hc, hd', hlower, hupper⟩ := h.columns i j hij
    cases hd.symm.trans hd'
    rw [← hxy i j hij, ← hlower, ← hupper]
    exact hx i c hc

theorem ranges_le (h : p.Matched roles M p') (he : e.Corresponds M e') (hb : p.Ranges e b.1 b.2)
    (hb' : p'.Ranges e' b'.1 b'.2) : b'.1 ≤ b.1 ∧ b.2 ≤ b'.2 := by
  have hvalue : ∀ {v x}, p.Spans x → e.eval x = v → b'.1 ≤ v ∧ v ≤ b'.2 := by
    rintro v x hx rfl
    obtain ⟨y, hy, hxy⟩ := h.exists_spans hx
    rw [he x y hxy]
    exact hb'.within y hy
  obtain ⟨x, hx, hleast⟩ := hb.least
  obtain ⟨z, hz, hgreatest⟩ := hb.greatest
  exact ⟨(hvalue hx hleast).1, (hvalue hz hgreatest).2⟩

/-- Corresponding forms have the same bounds. -/
theorem bounds_eq (h : p.Matched roles M p') (he : e.Corresponds M e') (hb : p.bounds e = .ok b)
    (hb' : p'.bounds e' = .ok b') : b = b' := by
  have hranges := ranges_of_bounds hb
  have hranges' := ranges_of_bounds hb'
  have hle := h.ranges_le he hranges hranges'
  have hge := h.flip.ranges_le he.flip hranges' hranges
  exact Prod.ext (Int.le_antisymm hge.1 hle.1) (Int.le_antisymm hle.2 hge.2)

theorem literalView_of_some (h : p.Matched roles M p') (he : e.Corresponds M e') {l : Literal}
    (hl : p.literalView e = .ok (some l)) :
    ∃ l', l.Corresponds M l' ∧ p'.literalView e' = .ok (some l') := by
  obtain ⟨heval, c, hc, hlower, hupper⟩ := literalView_eq_some_iff.1 hl
  cases Affine.eq_of_eval heval
  obtain ⟨l', hl', heval'⟩ := Literal.exists_of_corresponds_toAffine he
  obtain ⟨c', d, hc', hd, hcl, hcu⟩ := h.columns _ _ hl'.2
  cases hc.symm.trans hc'
  exact ⟨l', hl', literalView_eq_some_iff.2 ⟨heval', d, hd, hcl ▸ hlower, hcu ▸ hupper⟩⟩

theorem literalView (h : p.Matched roles M p') (he : e.Corresponds M e') {o o' : Option Literal}
    (ho : p.literalView e = .ok o) (ho' : p'.literalView e' = .ok o') :
    Option.Rel (Literal.Corresponds M) o o' := by
  cases o with
  | some l =>
    obtain ⟨l', hl', hview⟩ := h.literalView_of_some he ho
    cases hview.symm.trans ho'
    exact .some hl'
  | none =>
    cases o' with
    | none => exact .none
    | some l' =>
      obtain ⟨l, -, hview⟩ := h.flip.literalView_of_some he.flip ho'
      cases hview.symm.trans ho

/-- The bounds decide corresponding relations alike. -/
theorem truth_eq (h : p.Matched roles M p') {r r' : Relation} (hr : r.Corresponds M r')
    {o o' : Option Bool} (ho : p.truth r = .ok o) (ho' : p'.truth r' = .ok o') : o = o' := by
  obtain ⟨d, lower, upper, hd, hb, rfl⟩ := truth_eq_ok ho
  obtain ⟨d', lower', upper', hd', hb', rfl⟩ := truth_eq_ok ho'
  cases h.bounds_eq (hr.difference hd hd') hb hb'
  rw [hr.op]

end Matched

end Ilp

namespace Lowering

open Ilp

variable {α α' β β' γ γ' : Type} {V : Matching Nat → α → α' → Prop}
  {U : Matching Nat → β → β' → Prop} {e e' : Affine}

/-- Whenever the first lowering succeeds in one of two matched programs, the second one does so in
the other, with a corresponding result, or fails incidentally. -/
abbrev Tracks (roles : Option Nat → Option Nat → Prop) (M : Matching Nat)
    (V : Matching Nat → α → α' → Prop) (m : Lowering α) (m' : Lowering α') : Prop :=
  Follows (fun M p p' => p.Matched roles M p') LoweringError.IsIncidental M V m m'

/-- The results are of no interest. -/
abbrev Anything (_ : Matching Nat) (_ : α) (_ : α') : Prop := True

/-- A program that steady and composed steps build stays regular. -/
theorem regular_of_ok {m : Lowering α} {a : α} (hs : Steady m) (hc : Composed m) (hp : p.Regular)
    (h : m p = .ok a q) : p.Grows q ∧ q.Regular :=
  ⟨hs.grows hp.wellFormed h, hs.wellFormed hp.wellFormed h,
    (hc.builds.of_ok h).marksTrue hp.marksTrue⟩

namespace Tracks

/-- Two lowerings whose results are of no interest track each other if the second one does not
refuse what the first one has accepted. -/
theorem effect {m : Lowering α} {m' : Lowering α'} (hs : Steady m) (hc : Composed m)
    (hs' : Steady m') (hc' : Composed m')
    (h : ∀ p p' a q, p.Matched roles M p' → m p = .ok a q →
      FailsOnly LoweringError.IsIncidental m' p') : Tracks roles M Anything m m' := by
  intro p p' a q hmatched hrun
  obtain ⟨hgrows, hregular⟩ := regular_of_ok hs hc hmatched.left hrun
  cases hrun' : m' p' with
  | error error q' => exact .inl ⟨error, q', rfl, h p p' a q hmatched hrun error q' hrun'⟩
  | ok a' q' =>
    obtain ⟨hgrows', hregular'⟩ := regular_of_ok hs' hc' hmatched.right hrun'
    obtain ⟨N, hMN, hN⟩ := hmatched.grow_left hgrows hregular
    obtain ⟨N', hNN', hN'⟩ := hN.grow_right hgrows' hregular'
    exact .inr ⟨N', a', q', rfl, le_trans hMN hNN', hN', trivial⟩

theorem quiet {m : Lowering α} {m' : Lowering α'} (hm : Quiet m) (hm' : Quiet m') :
    Tracks roles M Anything m m' :=
  effect hm.steady hm.composed hm'.steady hm'.composed fun _ p' _ _ _ _ => hm'.incidental p'

theorem check {x : Except LoweringError α} {x' : Except LoweringError α'} {f : α → Lowering β}
    {f' : α' → Lowering β'} (hx' : ChecksOnly x')
    (hf : ∀ a a', x = .ok a → x' = .ok a' → Tracks roles M U (f a) (f' a')) :
    Tracks roles M U ((MonadLiftT.monadLift x : Lowering α) >>= f)
      ((MonadLiftT.monadLift x' : Lowering α') >>= f') := by
  intro p p' b q hmatched hrun
  obtain ⟨a, _, hlift, hrun⟩ := bind_eq_ok.1 hrun
  obtain ⟨ha, rfl⟩ := liftM_eq_ok.1 hlift
  cases ha' : x' with
  | error error => exact .inl ⟨error, p', rfl, hx' error ha'⟩
  | ok a' => exact hf a a' ha ha' hmatched hrun

theorem same {x : Except LoweringError γ} {f : γ → Lowering β} {f' : γ → Lowering β'}
    (hx : ChecksOnly x) (hf : ∀ c, Tracks roles M U (f c) (f' c)) :
    Tracks roles M U ((MonadLiftT.monadLift x : Lowering γ) >>= f)
      ((MonadLiftT.monadLift x : Lowering γ) >>= f') :=
  check hx fun c c' hc hc' => by
    obtain rfl := Except.ok.inj (hc.symm.trans hc')
    exact hf c

theorem lift {x : Except LoweringError α} {x' : Except LoweringError α'} (hx' : ChecksOnly x')
    (h : ∀ a a', x = .ok a → x' = .ok a' → V M a a') :
    Tracks roles M V (MonadLiftT.monadLift x : Lowering α) (MonadLiftT.monadLift x') := by
  rw [← bind_pure (MonadLiftT.monadLift x : Lowering α),
    ← bind_pure (MonadLiftT.monadLift x' : Lowering α')]
  exact check hx' fun a a' ha ha' => .pure (h a a' ha ha')

theorem read {g : Ilp → Except LoweringError γ} {g' : Ilp → Except LoweringError γ'}
    {f : γ → Lowering β} {f' : γ' → Lowering β'} (hg' : ∀ p, ChecksOnly (g' p))
    (hf : ∀ p p' a a', p.Matched roles M p' → g p = .ok a → g' p' = .ok a' →
      Tracks roles M U (f a) (f' a')) :
    Tracks roles M U
      (MonadState.get >>= fun p => (MonadLiftT.monadLift (g p) : Lowering γ) >>= f)
      (MonadState.get >>= fun p => (MonadLiftT.monadLift (g' p) : Lowering γ') >>= f') :=
  .get fun p p' hmatched => check (hg' p') fun a a' ha ha' => hf p p' a a' hmatched ha ha'

theorem bounds {f : Int × Int → Lowering β} {f' : Int × Int → Lowering β'}
    (he : e.Corresponds M e') (hf : ∀ b, Tracks roles M U (f b) (f' b)) :
    Tracks roles M U (Lowering.bounds e >>= f) (Lowering.bounds e' >>= f') := by
  unfold Lowering.bounds
  rw [bind_assoc, bind_assoc]
  refine read (fun p => checksOnly_bounds p e') fun p p' b b' hmatched hb hb' => ?_
  rw [← hmatched.bounds_eq he hb hb']
  exact hf b

theorem auxiliaryInt (purpose : String) (lower upper : Int) :
    Tracks roles M Matching.Pairs (Lowering.auxiliaryInt purpose lower upper)
      (Lowering.auxiliaryInt purpose lower upper) := by
  intro p p' i q hmatched hrun
  obtain ⟨j, q', hrun'⟩ : ∃ j q', Lowering.auxiliaryInt purpose lower upper p' = .ok j q' :=
    ⟨_, _, rfl⟩
  obtain ⟨rfl, name, rfl⟩ := auxiliaryInt_eq_ok hrun
  obtain ⟨rfl, name', rfl⟩ := auxiliaryInt_eq_ok hrun'
  obtain ⟨N, hMN, hpairs, hN⟩ :=
    hmatched.pair_withColumn (c := ⟨name, lower, upper, false⟩) (d := ⟨name', lower, upper, false⟩)
      ne_alwaysTrue_of_int ne_alwaysTrue_of_int rfl rfl
  exact .inr ⟨N, _, _, hrun', hMN, hN, hpairs⟩

theorem auxiliaryBool (purpose : String) :
    Tracks roles M Literal.Corresponds (Lowering.auxiliaryBool purpose)
      (Lowering.auxiliaryBool purpose) := by
  intro p p' l q hmatched hrun
  obtain ⟨l', q', hrun'⟩ : ∃ l' q', Lowering.auxiliaryBool purpose p' = .ok l' q' := ⟨_, _, rfl⟩
  obtain ⟨rfl, name, rfl⟩ := auxiliaryBool_eq_ok hrun
  obtain ⟨rfl, name', rfl⟩ := auxiliaryBool_eq_ok hrun'
  obtain ⟨N, hMN, hpairs, hN⟩ :=
    hmatched.pair_withColumn (c := ⟨name, 0, 1, true⟩) (d := ⟨name', 0, 1, true⟩)
      ne_alwaysTrue_of_bool ne_alwaysTrue_of_bool rfl rfl
  exact .inr ⟨N, _, _, hrun', hMN, hN, .ofColumn hpairs⟩

/-- The true columns are matched as soon as both are there. -/
theorem trueLiteral :
    Tracks roles M Literal.Corresponds Lowering.trueLiteral Lowering.trueLiteral := by
  have hafter : ∀ {p q : Ilp} {l : Literal}, Lowering.trueLiteral p = .ok l q →
      ∃ i, l = .ofColumn i ∧ q.trueColumn = some i := by
    intro p q l hrun
    cases hi : p.trueColumn with
    | some i =>
      cases (trueLiteral_of_some hi).symm.trans hrun
      exact ⟨i, rfl, hi⟩
    | none =>
      cases (trueLiteral_of_none hi).symm.trans hrun
      exact ⟨_, rfl, rfl⟩
  intro p p' l q hmatched hrun
  have htracks : Tracks roles M Anything Lowering.trueLiteral Lowering.trueLiteral :=
    effect steady_trueLiteral .trueLiteral steady_trueLiteral .trueLiteral
      fun _ p' _ _ _ _ => Incidental.trueLiteral p'
  rcases htracks hmatched hrun with hfail | ⟨N, l', q', hrun', hMN, hN, -⟩
  · exact .inl hfail
  obtain ⟨i, rfl, hi⟩ := hafter hrun
  obtain ⟨j, rfl, hj⟩ := hafter hrun'
  have htruth := hN.truth
  rw [hi, hj] at htruth
  exact .inr ⟨N, _, _, hrun', hMN, hN, .ofColumn htruth.pairs⟩

end Tracks

end Lowering

end Linearization
