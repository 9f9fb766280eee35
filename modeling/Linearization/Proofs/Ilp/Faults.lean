import Linearization.Proofs.Ilp.Clause
import Linearization.Proofs.Ilp.Encoding
import Linearization.Proofs.Ilp.Reify

/-!
# Lowerings without faults

A lowering of forms over the columns of a well-formed program looks up no column that is missing,
divides by nothing that can be zero and leaves the range of a word in no operation that is not
checked. The one fault that is left is the list of an encoding that no address space holds; an
enumeration limit below `Encoding.capacity` rules it out too.

`Faultless m p` says this of the lowering `m` in the program `p`. There is one lemma for every
lowering, each about the forms, literals and values that it is given.
-/

namespace Linearization

/-- The list of an encoding would be too long for an address space, and the enumeration limit lets
it through. -/
def Fault.IsOverlong (limit : Nat) (f : Fault) : Prop :=
  ∃ size, f = .capacity size ∧ Encoding.capacity < size ∧ size ≤ limit

/-- Not a fault, or that of an overlong list. -/
def LoweringError.IsRegular (limit : Nat) (e : LoweringError) : Prop :=
  ∀ f, e = .fault f → f.IsOverlong limit

/-- The check only fails for a number that is no word. -/
def OnlyOverflows {α : Type} (x : Except LoweringError α) : Prop := ∀ e, x = .error e → e = .overflow

/-- The columns of all literals have an index below `n`. -/
def Literal.AllBelow (n : Nat) (ls : List Literal) : Prop := ∀ l ∈ ls, l.column < n

namespace Literal.AllBelow

variable {m n : Nat} {l : Literal} {ls ks : List Literal}

theorem nil (n : Nat) : AllBelow n [] := List.forall_mem_nil _

theorem mono (h : AllBelow m ls) (hmn : m ≤ n) : AllBelow n ls :=
  fun l hl => Nat.lt_of_lt_of_le (h l hl) hmn

theorem singleton (h : l.column < n) : AllBelow n [l] := List.forall_mem_singleton.2 h

theorem singleton_negate (h : l.column < n) : AllBelow n [l.negate] :=
  List.forall_mem_singleton.2 h

theorem cons (h : l.column < n) (hs : AllBelow n ls) : AllBelow n (l :: ls) :=
  List.forall_mem_cons.2 ⟨h, hs⟩

theorem append (h : AllBelow n ls) (h' : AllBelow n ks) : AllBelow n (ls ++ ks) :=
  List.forall_mem_append.2 ⟨h, h'⟩

theorem negate (h : AllBelow n ls) : AllBelow n (ls.map Literal.negate) := by
  intro k hk
  obtain ⟨l, hl, rfl⟩ := List.mem_map.1 hk
  exact h l hl

end Literal.AllBelow

/-! ## Checks -/

namespace OnlyOverflows

variable {α β : Type} {a b e : Affine} {k : Int} {r : Relation} {p : Ilp}

theorem ok (a : α) : OnlyOverflows (.ok a) := nofun

theorem bind {x : Except LoweringError α} {f : α → Except LoweringError β} (hx : OnlyOverflows x)
    (hf : ∀ a, x = .ok a → OnlyOverflows (f a)) : OnlyOverflows (x >>= f) := by
  cases x with
  | ok a => exact hf a rfl
  | error e =>
    intro e' h
    cases h
    exact hx e rfl

theorem foldlM {f : β → α → Except LoweringError β} {as : List α} {b : β}
    (hf : ∀ b, ∀ a ∈ as, OnlyOverflows (f b a)) : OnlyOverflows (as.foldlM f b) := by
  induction as generalizing b with
  | nil => exact ok b
  | cons a as ih =>
    rw [List.foldlM_cons]
    refine (hf b a List.mem_cons_self).bind fun c _ => ih fun c a ha => ?_
    exact hf c a (List.mem_cons_of_mem _ ha)

theorem checked (v : Int) : OnlyOverflows (Word.checked v) := by
  unfold Word.checked
  split
  · exact ok _
  · intro e h
    cases h
    rfl

theorem checkedAbs (v : Int) : OnlyOverflows (Word.checkedAbs v) := checked _

theorem plain {v : Int} (h : Word.Fits v) : OnlyOverflows (Word.plain v) := by
  unfold Word.plain
  rw [if_pos h]
  exact ok v

theorem affine (e : Affine) : OnlyOverflows e.checked := by
  unfold Affine.checked
  split
  · exact ok e
  · intro e' h
    cases h
    rfl

theorem plus (a b : Affine) : OnlyOverflows (a.plus b) := affine _

theorem scale (e : Affine) (k : Int) : OnlyOverflows (e.scale k) := affine _

theorem minus (a b : Affine) : OnlyOverflows (a.minus b) :=
  (scale b (-1)).bind fun negative _ => plus a negative

theorem difference (r : Relation) : OnlyOverflows r.difference := minus _ _

theorem relax (slack : Int) (guards : List Literal) (e : Affine) :
    OnlyOverflows (Lowering.relax slack guards e) :=
  foldlM fun _ _ _ => (scale _ _).bind fun _ _ => minus _ _

theorem boundsFrom {ts : List Term} {interval : Int × Int}
    (h : ∀ t ∈ ts, t.column < p.columns.size) : OnlyOverflows (p.boundsFrom ts interval) := by
  induction ts generalizing interval with
  | nil => exact ok interval
  | cons t ts ih =>
    rw [List.forall_mem_cons] at h
    obtain ⟨lower, upper⟩ := interval
    rw [Ilp.boundsFrom, Array.getElem?_eq_getElem h.1]
    dsimp only
    split
    · exact ih h.2
    · intro e he
      cases he
      rfl

theorem bounds (h : e.Below p.columns.size) : OnlyOverflows (p.bounds e) :=
  (boundsFrom h).bind fun _ _ => (checked _).bind fun _ _ => (checked _).bind fun _ _ => ok _

theorem truth (h : r.Below p.columns.size) : OnlyOverflows (p.truth r) :=
  (difference r).bind fun _ hd => (bounds (.of_minus hd h.1 h.2)).bind fun _ _ => ok _

theorem literalView (h : e.Below p.columns.size) : OnlyOverflows (p.literalView e) := by
  unfold Ilp.literalView
  split
  · rename_i t hterms
    have ht : t.column < p.columns.size := h t (by rw [hterms]; exact List.mem_singleton_self t)
    rw [Array.getElem?_eq_getElem ht]
    dsimp only
    split
    · exact ok _
    split
    · exact ok _
    split <;> exact ok _
  · exact ok _

end OnlyOverflows

namespace Lowering

open Ilp Literal

variable {α β : Type} {p q : Ilp} {a b e target : Affine} {l : Literal} {r : Relation}
  {ls guards : List Literal} {forms items : List Affine}

/-- Started in the program, the lowering fails with no fault but that of an overlong list. -/
def Faultless (m : Lowering α) (p : Ilp) : Prop :=
  FailsOnly (LoweringError.IsRegular p.enumerationLimit) m p

namespace Faultless

theorem pure (a : α) (p : Ilp) : Faultless (Pure.pure a) p := FailsOnly.pure a p

theorem throw {e : LoweringError} (h : ∀ f, e ≠ .fault f) (p : Ilp) :
    Faultless (MonadExcept.throw e : Lowering α) p :=
  FailsOnly.throw (fun f hf => absurd hf (h f)) p

theorem bind {m : Lowering α} {f : α → Lowering β} (hm : Faultless m p) (hp : p.WellFormed)
    (hs : Steady m)
    (hf : ∀ a q, m p = .ok a q → p.Grows q → q.WellFormed → Faultless (f a) q) :
    Faultless (m >>= f) p := by
  refine FailsOnly.bind hm fun a q h => ?_
  have hgrows : p.Grows q := hs.grows hp h
  have hrest : Faultless (f a) q := hf a q h hgrows (hs.wellFormed hp h)
  unfold Faultless at hrest
  rwa [hgrows.enumerationLimit] at hrest

theorem liftM {x : Except LoweringError α} (hx : OnlyOverflows x) :
    Faultless (MonadLiftT.monadLift x : Lowering α) p := by
  show Faultless (ofExcept x) p
  cases x with
  | ok a => exact .pure a p
  | error e =>
    have he : ∀ f, e ≠ .fault f := fun f hf => by
      rw [hx e rfl] at hf
      cases hf
    exact .throw he p

theorem check {x : Except LoweringError α} {f : α → Lowering β} (hx : OnlyOverflows x)
    (hf : ∀ a, x = .ok a → Faultless (f a) p) :
    Faultless ((MonadLiftT.monadLift x : Lowering α) >>= f) p := by
  refine FailsOnly.bind (liftM hx) fun a q h => ?_
  obtain ⟨ha, rfl⟩ := liftM_eq_ok.1 h
  exact hf a ha

theorem checks {g : β → α → Except LoweringError β} {as : List α} {b : β} {γ : Type}
    {f : β → Lowering γ} (hg : ∀ b, ∀ a ∈ as, OnlyOverflows (g b a))
    (hf : ∀ c, as.foldlM g b = .ok c → Faultless (f c) p) :
    Faultless (as.foldlM (fun b a => (MonadLiftT.monadLift (g b a) : Lowering β)) b >>= f) p := by
  have hfold : Faultless
      (as.foldlM (fun b a => (MonadLiftT.monadLift (g b a) : Lowering β)) b) p := by
    clear hf
    induction as generalizing b with
    | nil => exact .pure b p
    | cons a as ih =>
      rw [List.foldlM_cons]
      refine check (hg b a List.mem_cons_self) fun c _ => ih fun c a ha => ?_
      exact hg c a (List.mem_cons_of_mem _ ha)
  refine FailsOnly.bind hfold fun c q h => ?_
  obtain ⟨hc, rfl⟩ := foldlM_liftM_eq_ok.1 h
  exact hf c hc

theorem get {f : Ilp → Lowering β} (hf : Faultless (f p) p) :
    Faultless (MonadState.get >>= f) p := by
  refine FailsOnly.bind (.of_ok rfl) fun s q h => ?_
  obtain ⟨rfl, rfl⟩ := get_eq_ok.1 h
  exact hf

theorem bounds {f : Int × Int → Lowering β} (he : e.Below p.columns.size)
    (hf : ∀ lower upper, p.bounds e = .ok (lower, upper) → Faultless (f (lower, upper)) p) :
    Faultless (Lowering.bounds e >>= f) p := by
  have hb : Faultless (Lowering.bounds e) p := get (liftM (.bounds he))
  refine FailsOnly.bind hb fun b q h => ?_
  obtain ⟨hb, rfl⟩ := bounds_eq_ok.1 h
  exact hf b.1 b.2 hb

theorem auxiliaryBool {purpose : String} {f : Literal → Lowering β} (hp : p.WellFormed)
    (hf : ∀ l q, l.column < q.columns.size → p.Grows q → q.WellFormed → Faultless (f l) q) :
    Faultless (Lowering.auxiliaryBool purpose >>= f) p :=
  bind (FailsOnly.of_ok rfl) hp (steady_auxiliaryBool purpose) fun l q h hg hq =>
    hf l q (isTruth_of_auxiliaryBool h).column_lt hg hq

theorem auxiliaryInt {purpose : String} {lower upper : Int} {f : Nat → Lowering β}
    (hp : p.WellFormed)
    (hf : ∀ i q, i < q.columns.size → p.Grows q → q.WellFormed → Faultless (f i) q) :
    Faultless (Lowering.auxiliaryInt purpose lower upper >>= f) p :=
  bind (FailsOnly.of_ok rfl) hp (steady_auxiliaryInt purpose lower upper) fun i q h hg hq =>
    hf i q (column_of_auxiliaryInt h).1 hg hq

theorem forM {f : α → Lowering PUnit} {as : List α} (hp : p.WellFormed)
    (hs : ∀ a ∈ as, Steady (f a))
    (hf : ∀ a ∈ as, ∀ q, p.Grows q → q.WellFormed → Faultless (f a) q) :
    Faultless (as.forM f) p := by
  induction as generalizing p with
  | nil => exact .pure _ p
  | cons a as ih =>
    rw [List.forall_mem_cons] at hs hf
    rw [List.forM_eq_forM, List.forM_cons]
    refine (hf.1 p (.refl p) hp).bind hp hs.1 fun _ q _ hg hq => ih hq hs.2 fun b hb s hgs => ?_
    exact hf.2 b hb s (hg.trans hgs)

end Faultless

/-! ## Guarded relations -/

theorem faultless_trueLiteral (p : Ilp) : Faultless trueLiteral p := by
  obtain ⟨l, q, h⟩ := exists_trueLiteral p
  exact FailsOnly.of_ok h

theorem faultless_constantLiteral (b : Bool) (p : Ilp) : Faultless (constantLiteral b) p :=
  FailsOnly.bind (faultless_trueLiteral p) fun _ _ _ => FailsOnly.pure _ _

theorem faultless_addContradiction (p : Ilp) : Faultless addContradiction p :=
  FailsOnly.bind (faultless_trueLiteral p) fun _ _ _ => FailsOnly.of_ok rfl

theorem faultless_addUnlessImplied {implied : Int → Int → Bool} {least : Int → Option Int}
    (he : e.Below p.columns.size) : Faultless (addUnlessImplied implied least e) p := by
  refine .bounds he fun lower upper _ => ?_
  dsimp only
  split
  · exact .pure _ p
  split
  · exact faultless_addContradiction p
  · exact .check (.checked _) fun _ _ => FailsOnly.of_ok rfl

theorem below_of_relax {n : Nat} {slack : Int} {d : Affine} (h : relax slack guards e = .ok d)
    (he : e.Below n) (hg : AllBelow n guards) : d.Below n := by
  refine .of_foldlM (fun g hmem d d' hd hstep => ?_) he h
  cases hscale : g.negate.toAffine.scale slack with
  | error error =>
    rw [hscale] at hstep
    cases hstep
  | ok scaled =>
    rw [hscale] at hstep
    have hguard : g.negate.toAffine.Below n := below_toAffine.2 (hg g hmem)
    exact .of_minus hstep hd (.of_scale hscale hguard)

theorem faultless_enforceNonpositive (he : e.Below p.columns.size)
    (hg : AllBelow p.columns.size guards) : Faultless (enforceNonpositive e guards) p := by
  refine .bounds he fun lower upper _ => ?_
  dsimp only
  split
  · exact .pure _ p
  · exact .check (.relax upper guards e) fun d hd =>
      faultless_addUnlessImplied (below_of_relax hd he hg)

/-- Inequalities between a form and the constant one, or its negation and one. -/
theorem faultless_enforceNonpositive_plus (he : e.Below p.columns.size)
    (hg : AllBelow p.columns.size guards) :
    Faultless (do enforceNonpositive (← e.plus (.const 1)) guards) p :=
  .check (.plus e _) fun _ hd =>
    faultless_enforceNonpositive (.of_plus hd he (Affine.below_const _ _)) hg

theorem faultless_enforceNonzero (hp : p.WellFormed) (he : e.Below p.columns.size)
    (hg : AllBelow p.columns.size guards) : Faultless (enforceNonzero e guards) p := by
  refine .bounds he fun lower upper _ => ?_
  dsimp only
  split
  · exact .pure _ p
  split
  · exact .check (.scale e _) fun n hn =>
      faultless_enforceNonpositive_plus (.of_negated hn he) hg
  split
  · exact faultless_enforceNonpositive_plus he hg
  · refine .auxiliaryBool hp fun below q hbelow hgrows hq => ?_
    have hle : p.columns.size ≤ q.columns.size := hgrows.size_le
    refine .check (.plus e _) fun d hd => ?_
    have hfirst : Faultless (enforceNonpositive d (guards ++ [below])) q :=
      faultless_enforceNonpositive (.of_plus hd (he.mono hle) (Affine.below_const _ _))
        ((hg.mono hle).append (.singleton hbelow))
    refine hfirst.bind hq (steady_enforceNonpositive _ _) fun _ s _ hgrows' _ => ?_
    have hle' : p.columns.size ≤ s.columns.size := Nat.le_trans hle hgrows'.size_le
    refine .check (.scale e _) fun n hn =>
      faultless_enforceNonpositive_plus (.of_negated hn (he.mono hle')) ?_
    exact (hg.mono hle').append (.singleton (Nat.lt_of_lt_of_le hbelow hgrows'.size_le))

theorem faultless_enforce (hp : p.WellFormed) (hr : r.Below p.columns.size)
    (hg : AllBelow p.columns.size guards) : Faultless (enforce r guards) p := by
  refine .check (.difference r) fun d hd => ?_
  have he : d.Below p.columns.size := .of_minus hd hr.1 hr.2
  have hnegated : Faultless (do enforceNonpositive (← d.negated) guards) p :=
    .check (.scale d _) fun n hn => faultless_enforceNonpositive (.of_negated hn he) hg
  cases r.op with
  | le => exact faultless_enforceNonpositive he hg
  | lt => exact faultless_enforceNonpositive_plus he hg
  | ge => exact hnegated
  | gt =>
    exact .check (.scale d _) fun n hn =>
      faultless_enforceNonpositive_plus (.of_negated hn he) hg
  | eq =>
    dsimp only
    split
    · exact faultless_addUnlessImplied he
    · refine (faultless_enforceNonpositive he hg).bind hp (steady_enforceNonpositive _ _)
        fun _ q _ hgrows _ => .check (.scale d _) fun n hn => ?_
      exact faultless_enforceNonpositive (.of_negated hn (he.mono hgrows.size_le))
        (hg.mono hgrows.size_le)
  | ne => exact faultless_enforceNonzero hp he hg

theorem Faultless.enforce {f : Unit → Lowering α} (hp : p.WellFormed)
    (hr : r.Below p.columns.size) (hg : AllBelow p.columns.size guards)
    (hf : ∀ q, p.Grows q → q.WellFormed → Faultless (f ()) q) :
    Faultless (Lowering.enforce r guards >>= f) p :=
  (faultless_enforce hp hr hg).bind hp (steady_enforce r guards) fun _ q _ hgrows hq =>
    hf q hgrows hq

theorem Faultless.enforceBoth {s : Relation} {f : Unit → Lowering α} (hp : p.WellFormed)
    (hl : l.column < p.columns.size) (hr : r.Below p.columns.size) (hs : s.Below p.columns.size)
    (hf : ∀ q, p.Grows q → q.WellFormed → Faultless (f ()) q) :
    Faultless (Lowering.enforce r [l] >>= fun _ => Lowering.enforce s [l.negate] >>= f) p :=
  .enforce hp hr (.singleton hl) fun q hgrows hq => by
    have hle : p.columns.size ≤ q.columns.size := hgrows.size_le
    exact .enforce hq ⟨hs.1.mono hle, hs.2.mono hle⟩
      (.singleton_negate (Nat.lt_of_lt_of_le hl hle)) fun u hgrows' hu =>
        hf u (hgrows.trans hgrows') hu

theorem faultless_reify (hp : p.WellFormed) (hr : r.Below p.columns.size) :
    Faultless (reify r) p := by
  refine .get (.check (.truth hr) fun value _ => ?_)
  cases value with
  | some value => exact faultless_constantLiteral value p
  | none =>
    refine .auxiliaryBool hp fun l q hl hgrows hq => ?_
    have hrq : r.Below q.columns.size := ⟨hr.1.mono hgrows.size_le, hr.2.mono hgrows.size_le⟩
    exact .enforceBoth hq hl hrq hrq fun _ _ _ => .pure _ _

/-! ## Clauses -/

theorem faultless_addClause (hls : AllBelow p.columns.size ls)
    (hg : AllBelow p.columns.size guards) : Faultless (addClause ls guards) p :=
  .checks (fun _ _ _ => .minus _ _) fun _ hd =>
    faultless_enforceNonpositive (.of_foldlM (fun l hl _ _ hc h =>
      .of_minus h hc (below_toAffine.2 (hls l hl))) (Affine.below_const _ _) hd) hg

theorem faultless_addParity (hp : p.WellFormed) (hls : AllBelow p.columns.size ls)
    (hg : AllBelow p.columns.size guards) : Faultless (addParity ls guards) p := by
  unfold addParity
  split
  · exact faultless_addClause (.nil _) hg
  · refine .auxiliaryInt hp fun half q hhalf hgrows hq => ?_
    have hle : p.columns.size ≤ q.columns.size := hgrows.size_le
    refine .checks (fun _ _ _ => .plus _ _) fun total htotal => ?_
    refine .check (.minus _ _) fun parity hparity => ?_
    have htotal : total.Below q.columns.size :=
      .of_foldlM (fun l hl _ _ hc h => .of_plus h hc (below_toAffine.2 (hls.mono hle l hl)))
        (Affine.below_const _ _) htotal
    have hparity : parity.Below q.columns.size :=
      .of_minus hparity htotal (Affine.below_single hhalf 2)
    exact faultless_enforce hq ⟨hparity, Affine.below_const _ _⟩ (hg.mono hle)

theorem faultless_gate {purpose : String} (single : Literal → Literal → List Literal)
    (whole : Literal → List Literal) (hp : p.WellFormed)
    (hsingle : ∀ n l k, l.column < n → k ∈ ls → AllBelow n ls → AllBelow n (single l k))
    (hwhole : ∀ n l, l.column < n → AllBelow n ls → AllBelow n (whole l))
    (hls : AllBelow p.columns.size ls) :
    Faultless (gate purpose single whole ls) p := by
  refine .auxiliaryBool hp fun l q hl hgrows hq => ?_
  have hlq : AllBelow q.columns.size ls := hls.mono hgrows.size_le
  have heach : Faultless (ls.forM fun k => addClause (single l k) []) q :=
    .forM hq (fun _ _ => steady_addClause _ _) fun k hk s hs _ =>
      faultless_addClause (hsingle _ l k (Nat.lt_of_lt_of_le hl hs.size_le) hk
        (hlq.mono hs.size_le)) (.nil _)
  refine heach.bind hq (.forM (fun _ => steady_addClause _ _) ls) fun _ s _ hgrows' hs => ?_
  have hlast : Faultless (addClause (whole l) []) s :=
    faultless_addClause (hwhole _ l (Nat.lt_of_lt_of_le hl hgrows'.size_le)
      (hlq.mono hgrows'.size_le)) (.nil _)
  exact hlast.bind hs (steady_addClause _ _) fun _ _ _ _ _ => .pure _ _

theorem faultless_conjunction (hp : p.WellFormed) (hls : AllBelow p.columns.size ls) :
    Faultless (conjunction ls) p := by
  unfold conjunction
  split
  · exact faultless_constantLiteral true p
  · exact .pure _ p
  · exact faultless_gate (fun all l => [all.negate, l])
      (fun all => ls.map Literal.negate ++ [all]) hp
      (fun n all l hall hl hls => .cons hall (.singleton (hls l hl)))
      (fun n all hall hls => hls.negate.append (.singleton hall)) hls

theorem faultless_disjunction (hp : p.WellFormed) (hls : AllBelow p.columns.size ls) :
    Faultless (disjunction ls) p := by
  unfold disjunction
  split
  · exact faultless_constantLiteral false p
  · exact .pure _ p
  · exact faultless_gate (fun any l => [l.negate, any]) (fun any => ls ++ [any.negate]) hp
      (fun n any l hany hl hls => .cons (hls l hl) (.singleton hany))
      (fun n any hany hls => hls.append (.singleton hany)) hls

end Lowering

end Linearization
