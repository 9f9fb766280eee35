import Linearization.Ilp.Encoding
import Linearization.Proofs.Ilp.Enforce
import Mathlib.Data.List.Nodup
import Mathlib.Tactic.Ring

/-!
# Exactness of value encodings

The literals of an encoding single out a value exactly if their sum is one and the sum of value
times literal is that value (`selects_iff`). So the two rows of `encode e` leave, in every solution,
the literal of the value of `e` as the only true one, and every solution extends to them.
-/

namespace Linearization

namespace Encoding

open Ilp

variable {p : Ilp} {encoding : Encoding} {x : Assignment}

/-- The sum of the literals. -/
def weight (encoding : Encoding) (x : Assignment) : Int :=
  (encoding.map fun entry => entry.2.toAffine.eval x).sum

/-- The sum of value times literal. -/
def mean (encoding : Encoding) (x : Assignment) : Int :=
  (encoding.map fun entry => entry.1 * entry.2.toAffine.eval x).sum

theorem weight_cons (entry : Int × Literal) (rest : Encoding) (x : Assignment) :
    weight (entry :: rest) x = entry.2.toAffine.eval x + weight rest x := rfl

theorem mean_cons (entry : Int × Literal) (rest : Encoding) (x : Assignment) :
    mean (entry :: rest) x = entry.1 * entry.2.toAffine.eval x + mean rest x := rfl

theorem weight_nonneg (ht : ∀ entry ∈ encoding, p.IsTruth entry.2) (hx : p.Solves x) :
    0 ≤ weight encoding x := by
  refine List.sum_nonneg fun v hv => ?_
  obtain ⟨entry, hmem, rfl⟩ := List.mem_map.1 hv
  rcases (ht entry hmem).eval hx with h | h <;> omega

theorem sums_eq_zero (h : ∀ entry ∈ encoding, entry.2.toAffine.eval x = 0) :
    weight encoding x = 0 ∧ mean encoding x = 0 := by
  constructor <;> refine List.sum_eq_zero fun v hv => ?_ <;>
    obtain ⟨entry, hmem, rfl⟩ := List.mem_map.1 hv <;> simp [h entry hmem]

theorem eval_eq_zero_of_weight (ht : ∀ entry ∈ encoding, p.IsTruth entry.2) (hx : p.Solves x)
    (h : weight encoding x = 0) : ∀ entry ∈ encoding, entry.2.toAffine.eval x = 0 := by
  induction encoding with
  | nil => exact List.forall_mem_nil _
  | cons head rest ih =>
    rw [List.forall_mem_cons] at ht ⊢
    rw [weight_cons] at h
    have hrest := weight_nonneg ht.2 hx
    rcases ht.1.eval hx with hhead | hhead
    · exact ⟨hhead, ih ht.2 (by omega)⟩
    · omega

/-- A false literal in front changes nothing, since no other entry has its value. -/
theorem selects_cons_of_not {entry : Int × Literal} {rest : Encoding} {n : Int}
    (hfresh : ∀ other ∈ rest, other.1 ≠ entry.1) (h : ¬ entry.2.Holds x) :
    Selects (entry :: rest) x n ↔ rest.Selects x n := by
  unfold Selects
  rw [List.exists_mem_cons_iff, List.forall_mem_cons]
  simp only [h, false_iff]
  constructor
  · rintro ⟨hex, hne, hall⟩
    exact ⟨hex.resolve_left hne, hall⟩
  · rintro ⟨⟨other, hmem, heq⟩, hall⟩
    exact ⟨.inr ⟨other, hmem, heq⟩, fun hn => hfresh other hmem (heq.trans hn.symm), hall⟩

/-- A true literal in front singles out its value if it is the only one. -/
theorem selects_cons_of_holds {entry : Int × Literal} {rest : Encoding} {n : Int}
    (hfresh : ∀ other ∈ rest, other.1 ≠ entry.1) (h : entry.2.Holds x) :
    Selects (entry :: rest) x n ↔ entry.1 = n ∧ ∀ other ∈ rest, ¬ other.2.Holds x := by
  unfold Selects
  rw [List.exists_mem_cons_iff, List.forall_mem_cons]
  simp only [h, true_iff]
  constructor
  · rintro ⟨-, rfl, hall⟩
    exact ⟨rfl, fun other hmem hother => hfresh other hmem ((hall other hmem).1 hother)⟩
  · rintro ⟨rfl, hnone⟩
    exact ⟨.inl rfl, rfl, fun other hmem => iff_of_false (hnone other hmem) (hfresh other hmem)⟩

theorem none_holds_iff (ht : ∀ entry ∈ encoding, p.IsTruth entry.2) (hx : p.Solves x) :
    (∀ entry ∈ encoding, ¬ entry.2.Holds x) ↔ weight encoding x = 0 := by
  have hzero : (∀ entry ∈ encoding, ¬ entry.2.Holds x) ↔
      ∀ entry ∈ encoding, entry.2.toAffine.eval x = 0 :=
    forall₂_congr fun entry hmem => by
      have hvalue := (ht entry hmem).eval hx
      unfold Literal.Holds
      omega
  rw [hzero]
  exact ⟨fun h => (sums_eq_zero h).1, eval_eq_zero_of_weight ht hx⟩

/-- The true literals are those of the value `n` exactly if the sums are one and `n`. -/
theorem selects_iff {n : Int} (hv : (encoding.map Prod.fst).Nodup)
    (ht : ∀ entry ∈ encoding, p.IsTruth entry.2) (hx : p.Solves x) :
    encoding.Selects x n ↔ weight encoding x = 1 ∧ mean encoding x = n := by
  induction encoding with
  | nil => simp [Selects, weight]
  | cons head rest ih =>
    rw [List.map_cons, List.nodup_cons] at hv
    rw [List.forall_mem_cons] at ht
    have hfresh : ∀ entry ∈ rest, entry.1 ≠ head.1 := fun entry hmem heq =>
      hv.1 (heq ▸ List.mem_map_of_mem hmem)
    rw [weight_cons, mean_cons]
    rcases ht.1.eval hx with hhead | hhead
    · have hfalse : ¬ head.2.Holds x := by
        unfold Literal.Holds
        omega
      rw [selects_cons_of_not hfresh hfalse, ih hv.2 ht.2, hhead]
      simp only [Int.mul_zero, Int.zero_add]
    · rw [selects_cons_of_holds hfresh hhead, none_holds_iff ht.2 hx, hhead]
      -- Without weight the other entries have no mean either.
      have hmean : weight rest x = 0 → mean rest x = 0 := fun h =>
        (sums_eq_zero (eval_eq_zero_of_weight ht.2 hx h)).2
      omega

end Encoding

namespace Lowering

open Ilp Literal

variable {p q : Ilp} {e total total' channel channel' : Affine} {encoding : Encoding}
  {x : Assignment}

theorem interval_succ (value : Int) (count : Nat) :
    ((List.range (count + 1)).map fun (i : Nat) => value + i) =
      value :: (List.range count).map fun (i : Nat) => value + 1 + i := by
  rw [List.range_succ_eq_map, List.map_cons, List.map_map]
  congr 1
  · omega
  · refine List.map_congr_left fun i _ => ?_
    show value + ((i + 1 : Nat) : Int) = _
    omega

theorem nodup_interval (lower upper : Int) : (interval lower upper).Nodup :=
  List.nodup_range.map fun i j h => by
    omega

/-! ## The literals of an encoding -/

theorem steady_encodeFrom (count : Nat) (value : Int) (total channel : Affine) :
    Steady (encodeFrom count value total channel) := by
  induction count generalizing value total channel with
  | zero => exact Keeps.pure _
  | succ count ih =>
    exact (steady_auxiliaryBool _).bind fun l => (steady_liftM _).bind fun _ =>
      (steady_liftM _).bind fun _ => (steady_liftM _).bind fun _ =>
        (ih _ _ _).bind fun _ => Keeps.pure _

theorem encodeFrom_succ_eq_ok {count : Nat} {value : Int}
    (h : encodeFrom (count + 1) value total channel p = .ok (encoding, total', channel') q) :
    ∃ l rest r t c, auxiliaryBool "val" p = .ok l r ∧
      (∀ x : Assignment, t.eval x = total.eval x + l.toAffine.eval x) ∧
      (∀ x : Assignment, c.eval x = channel.eval x - value * l.toAffine.eval x) ∧
      encodeFrom count (value + 1) t c r = .ok (rest, total', channel') q ∧
      encoding = (value, l) :: rest := by
  unfold encodeFrom at h
  simp only [bind_eq_ok, liftM_eq_ok, pure_eq_ok] at h
  obtain ⟨l, r, hl, t, _, ⟨ht, rfl⟩, s, _, ⟨hs, rfl⟩, c, _, ⟨hc, rfl⟩, ⟨rest, t', c'⟩, _, hcont,
    heq, rfl⟩ := h
  cases heq
  refine ⟨l, rest, r, t, c, hl, Affine.eval_of_plus ht, fun x => ?_, hcont, rfl⟩
  rw [Affine.eval_of_minus hc, Affine.eval_of_scale hs]

/-- The literals stand for truth values, one for each value. -/
theorem literals_of_encodeFrom {count : Nat} {value : Int} (hp : p.WellFormed)
    (h : encodeFrom count value total channel p = .ok (encoding, total', channel') q) :
    encoding.map Prod.fst = (List.range count).map (fun (i : Nat) => value + i) ∧
      ∀ entry ∈ encoding, q.IsTruth entry.2 := by
  induction count generalizing p value total channel encoding with
  | zero =>
    obtain ⟨h, -⟩ := pure_eq_ok.1 h
    cases h
    exact ⟨rfl, List.forall_mem_nil _⟩
  | succ count ih =>
    obtain ⟨l, rest, r, t, c, hl, -, -, hcont, rfl⟩ := encodeFrom_succ_eq_ok h
    have hr := (steady_auxiliaryBool _).wellFormed hp hl
    obtain ⟨hvalues, htruth⟩ := ih hr hcont
    refine ⟨by rw [interval_succ, List.map_cons, hvalues], List.forall_mem_cons.2 ⟨?_, htruth⟩⟩
    exact (isTruth_of_auxiliaryBool hl).mono ((steady_encodeFrom _ _ _ _).grows hr hcont)

theorem eval_of_encodeFrom {count : Nat} {value : Int}
    (h : encodeFrom count value total channel p = .ok (encoding, total', channel') q)
    (x : Assignment) : total'.eval x = total.eval x + encoding.weight x ∧
      channel'.eval x = channel.eval x - encoding.mean x := by
  induction count generalizing p value total channel encoding with
  | zero =>
    obtain ⟨h, -⟩ := pure_eq_ok.1 h
    cases h
    simp [Encoding.weight, Encoding.mean]
  | succ count ih =>
    obtain ⟨l, rest, r, t, c, -, ht, hc, hcont, rfl⟩ := encodeFrom_succ_eq_ok h
    obtain ⟨hweight, hmean⟩ := ih hcont
    rw [hweight, hmean, ht, hc, Encoding.weight_cons, Encoding.mean_cons]
    dsimp only
    constructor <;> omega

theorem exists_of_encodeFrom {count : Nat} {value : Int} (hp : p.WellFormed)
    (h : encodeFrom count value total channel p = .ok (encoding, total', channel') q)
    (hx : p.Solves x) (n : Int) : ∃ y, AgreeBelow p.columns.size x y ∧ q.Solves y ∧
      ∀ entry ∈ encoding, (entry.2.Holds y ↔ entry.1 = n) := by
  induction count generalizing p value total channel encoding x with
  | zero =>
    obtain ⟨h, rfl⟩ := pure_eq_ok.1 h
    cases h
    exact ⟨x, .refl _ x, hx, List.forall_mem_nil _⟩
  | succ count ih =>
    obtain ⟨l, rest, r, t, c, hl, -, -, hcont, rfl⟩ := encodeFrom_succ_eq_ok h
    have hr := (steady_auxiliaryBool _).wellFormed hp hl
    have hgrows := (steady_auxiliaryBool _).grows hp hl
    obtain ⟨y, hxy, hy, hly⟩ := exists_of_auxiliaryBool hp hl hx (value = n)
    obtain ⟨z, hyz, hz, hrest⟩ := ih hr hcont hy
    refine ⟨z, hxy.trans (hyz.mono hgrows.size_le), hz, List.forall_mem_cons.2 ⟨?_, hrest⟩⟩
    rw [← hly]
    exact (holds_congr (isTruth_of_auxiliaryBool hl).column_lt hyz).symm

/-! ## The rows of an encoding -/

/-- The two rows say that the literals single out the value of the form. -/
theorem selects_iff_of_encodeFrom {lower upper : Int} {d : Affine} (hp : p.WellFormed)
    (h : encodeFrom (upper - lower + 1).toNat lower (.const 0) e p =
      .ok (encoding, total, channel) q)
    (hd : total.minus (.const 1) = .ok d) (hx : q.Solves x) :
    encoding.Selects x (e.eval x) ↔ d.eval x = 0 ∧ channel.eval x = 0 := by
  obtain ⟨hvalues, htruth⟩ := literals_of_encodeFrom hp h
  have hnodup : (encoding.map Prod.fst).Nodup := hvalues ▸ nodup_interval lower upper
  obtain ⟨hweight, hmean⟩ := eval_of_encodeFrom h x
  rw [Encoding.selects_iff hnodup htruth hx, Affine.eval_of_minus hd, hweight, hmean,
    Affine.eval_const, Affine.eval_const]
  omega

/-- The value of the form may be singled out. -/
theorem exists_selects_of_encodeFrom {lower upper : Int} (hp : p.WellFormed)
    (hb : p.bounds e = .ok (lower, upper))
    (h : encodeFrom (upper - lower + 1).toNat lower (.const 0) e p =
      .ok (encoding, total, channel) q) (hx : p.Solves x) :
    ∃ y, AgreeBelow p.columns.size x y ∧ q.Solves y ∧ encoding.Selects y (e.eval y) := by
  obtain ⟨y, hxy, hy, hlits⟩ := exists_of_encodeFrom hp h hx (e.eval x)
  refine ⟨y, hxy, hy, ?_⟩
  rw [← (below_of_bounds hb).eval_congr hxy]
  refine ⟨?_, hlits⟩
  have hmem : e.eval x ∈ encoding.map Prod.fst :=
    (literals_of_encodeFrom hp h).1 ▸ mem_interval.2 (mem_of_bounds hb hx)
  obtain ⟨entry, hmem, heq⟩ := List.mem_map.1 hmem
  exact ⟨entry, hmem, heq⟩

theorem local_selects (he : e.Below p.columns.size) (ht : ∀ entry ∈ encoding, p.IsTruth entry.2) :
    Local p.columns.size fun x => encoding.Selects x (e.eval x) := by
  intro x y hxy
  show encoding.Selects x (e.eval x) ↔ encoding.Selects y (e.eval y)
  unfold Encoding.Selects
  rw [he.eval_congr hxy]
  refine and_congr_right fun _ => forall₂_congr fun entry hmem => ?_
  rw [holds_congr (ht entry hmem).column_lt hxy]

theorem defines_of_encoding {lower upper : Int} {d : Affine} {q₁ q₂ : Ilp} {u u' : Unit}
    (hp : p.WellFormed) (hb : p.bounds e = .ok (lower, upper))
    (h : encodeFrom (upper - lower + 1).toNat lower (.const 0) e p =
      .ok (encoding, total, channel) q₁)
    (hd : total.minus (.const 1) = .ok d) (h₁ : addZero d q₁ = .ok u q₂)
    (h₂ : addZero channel q₂ = .ok u' q) :
    p.Defines q fun x => encoding.Selects x (e.eval x) := by
  have hq₁ := (steady_encodeFrom _ _ _ _).wellFormed hp h
  have hgrows := (steady_encodeFrom _ _ _ _).grows hp h
  have hone := imposes_of_addZero hq₁ h₁
  have hvalue := imposes_of_addZero hone.wellFormed h₂
  have hselects := fun x hx => selects_iff_of_encodeFrom (x := x) hp h hd hx
  have hlocal := local_selects ((below_of_bounds hb).mono hgrows.size_le)
    (literals_of_encodeFrom hp h).2
  refine ⟨hgrows.trans (hone.grows.trans hvalue.grows), hvalue.wellFormed, fun x hx => ?_,
    fun x hx _ => ?_⟩
  · have hx₂ := hvalue.grows.solves hx
    exact (hselects x (hone.grows.solves hx₂)).2 ⟨hone.sound x hx₂, hvalue.sound x hx⟩
  · obtain ⟨y, hxy, hy, hyselects⟩ := exists_selects_of_encodeFrom hp hb h hx
    obtain ⟨z, hyz, hz⟩ := hone.complete y hy ((hselects y hy).1 hyselects).1
    have hzselects := (hlocal y z hyz).1 hyselects
    obtain ⟨w, hzw, hw⟩ := hvalue.complete z hz
      ((hselects z (hone.grows.solves hz)).1 hzselects).2
    exact ⟨w, hxy.trans ((hyz.mono hgrows.size_le).trans
      (hzw.mono (hgrows.trans hone.grows).size_le)), hw⟩

theorem encodes_of_encoding {lower upper : Int} {d : Affine} {q₁ q₂ : Ilp} {u u' : Unit}
    (hp : p.WellFormed) (hb : p.bounds e = .ok (lower, upper))
    (h : encodeFrom (upper - lower + 1).toNat lower (.const 0) e p =
      .ok (encoding, total, channel) q₁)
    (hd : total.minus (.const 1) = .ok d) (h₁ : addZero d q₁ = .ok u q₂)
    (h₂ : addZero channel q₂ = .ok u' q) : q.Encodes e encoding := by
  have hq₁ := (steady_encodeFrom _ _ _ _).wellFormed hp h
  have hdefines := defines_of_encoding hp hb h hd h₁ h₂
  obtain ⟨hvalues, htruth⟩ := literals_of_encodeFrom hp h
  refine ⟨⟨lower, upper, hdefines.grows.bounds hb, hvalues⟩, fun entry hmem => ?_,
    hdefines.sound⟩
  have hgrows₁ := (steady_addUnlessImplied _ _ d).grows hq₁ h₁
  have hgrows₂ := (steady_addUnlessImplied _ _ channel).grows
    ((steady_addUnlessImplied _ _ d).wellFormed hq₁ h₁) h₂
  exact (htruth entry hmem).mono (hgrows₁.trans hgrows₂)

/-! ## Shared encodings -/

theorem encoding?_eq_none : p.encoding? e = none ↔ e ∉ p.encodings.map Prod.fst := by
  unfold Ilp.encoding?
  rw [Option.map_eq_none_iff, List.find?_eq_none, List.mem_map]
  constructor
  · rintro h ⟨entry, hmem, rfl⟩
    exact h entry hmem (decide_eq_true rfl)
  · exact fun h entry hmem heq => h ⟨entry, hmem, of_decide_eq_true heq⟩

/-- While the literals and rows of an encoding are made, no other encoding is. -/
def Untouched (p q : Ilp) : Prop := q.encodings = p.encodings

instance : Std.Refl Untouched := ⟨fun _ => rfl⟩

instance : Trans Untouched Untouched Untouched := ⟨fun h h' => h'.trans h⟩

theorem untouched_liftM {α : Type} (x : Except LoweringError α) :
    Keeps Untouched (liftM x : Lowering α) := by
  show Keeps Untouched (ofExcept x)
  cases x with
  | ok a => exact Keeps.pure a
  | error error => exact Keeps.throw error

theorem untouched_encodeFrom (count : Nat) (value : Int) (total channel : Affine) :
    Keeps Untouched (encodeFrom count value total channel) := by
  induction count generalizing value total channel with
  | zero => exact Keeps.pure _
  | succ count ih =>
    have hliteral : Keeps Untouched (auxiliaryBool "val") := fun _ => rfl
    exact hliteral.bind fun l => (untouched_liftM _).bind fun _ => (untouched_liftM _).bind
      fun _ => (untouched_liftM _).bind fun _ => (ih _ _ _).bind fun _ => Keeps.pure _

theorem untouched_addUnlessImplied (implied : Int → Int → Bool)
    (least : Int → Option Int) (e : Affine) :
    Keeps Untouched (addUnlessImplied implied least e) := by
  have hrow : ∀ row, Keeps Untouched (addRow row) := fun _ _ => rfl
  have htrue : Keeps Untouched trueLiteral := fun p => by
    unfold KeepsAt Untouched
    cases h : p.trueColumn with
    | some i => rw [stateAfter_of_ok (trueLiteral_of_some h)]
    | none => rw [stateAfter_of_ok (trueLiteral_of_none h), withTrue]; rfl
  refine (Keeps.get.bind fun _ => untouched_liftM _ : Keeps Untouched (bounds e)).bind fun b => ?_
  obtain ⟨lower, upper⟩ := b
  dsimp only
  split
  · exact Keeps.pure _
  split
  · exact htrue.bind fun _ => hrow _
  · exact (untouched_liftM _).bind fun _ => hrow _

/-- An encoding that is made has a literal for each value, and there are no more than the limit. -/
theorem size_of_encodeFrom {lower upper : Int} (hp : p.WellFormed) (hne : lower ≠ upper)
    (hlimit : ¬ Word.span lower upper > p.enumerationLimit)
    (hcapacity : ¬ Word.span lower upper > Encoding.capacity)
    (h : encodeFrom (upper - lower + 1).toNat lower total channel p =
      .ok (encoding, total', channel') q) :
    encoding.length ≠ 1 ∧ encoding.length ≤ p.enumerationLimit ∧
      encoding.length ≤ Encoding.capacity := by
  have hlength : encoding.length = (upper - lower + 1).toNat := by
    have hvalues := congrArg List.length (literals_of_encodeFrom hp h).1
    simpa using hvalues
  unfold Word.span at hlimit hcapacity
  unfold Encoding.capacity at hcapacity ⊢
  rw [hlength]
  omega

/-- The program that remembers one more encoding. -/
def withEncoding (p : Ilp) (e : Affine) (encoding : Encoding) : Ilp :=
  { p with encodings := (e, encoding) :: p.encodings }

theorem grows_withEncoding (p : Ilp) (e : Affine) (encoding : Encoding) :
    p.Grows (withEncoding p e encoding) where
  columns := List.prefix_refl _
  rows := List.prefix_refl _
  trueColumn _ h := h
  encodings := List.suffix_cons _ _
  objective := rfl
  enumerationLimit := rfl

theorem wellFormed_withEncoding (hp : p.WellFormed) (h : p.Encodes e encoding)
    (hsize : encoding.length ≠ 1 ∧ encoding.length ≤ p.enumerationLimit ∧
      encoding.length ≤ Encoding.capacity)
    (hnew : p.encoding? e = none) : (withEncoding p e encoding).WellFormed where
  rows := hp.rows
  trueColumn := hp.trueColumn
  encodings entry hmem := by
    rcases List.mem_cons.1 hmem with rfl | hmem
    · exact h.mono (grows_withEncoding p _ _)
    · exact (hp.encodings entry hmem).mono (grows_withEncoding p _ _)
  sizes := List.forall_mem_cons.2 ⟨hsize, hp.sizes⟩
  distinct := List.nodup_cons.2 ⟨encoding?_eq_none.1 hnew, hp.distinct⟩

/-- What the entry that is about to be kept needs besides its rows. -/
theorem size_and_free {lower upper : Int} {d : Affine} {q₁ q₂ : Ilp} {u u' : Unit}
    (hp : p.WellFormed) (hne : lower ≠ upper)
    (hlimit : ¬ Word.span lower upper > p.enumerationLimit)
    (hcapacity : ¬ Word.span lower upper > Encoding.capacity) (hnew : p.encoding? e = none)
    (h : encodeFrom (upper - lower + 1).toNat lower (.const 0) e p =
      .ok (encoding, total, channel) q₁)
    (h₁ : addZero d q₁ = .ok u q₂) (h₂ : addZero channel q₂ = .ok u' q) :
    (encoding.length ≠ 1 ∧ encoding.length ≤ q.enumerationLimit ∧
      encoding.length ≤ Encoding.capacity) ∧ q.encoding? e = none := by
  have hp₁ := (steady_encodeFrom _ _ _ _).wellFormed hp h
  have hgrows₁ := (steady_encodeFrom _ _ _ _).grows hp h
  have hgrows₂ := (steady_addUnlessImplied _ _ d).grows hp₁ h₁
  have hgrows₃ := (steady_addUnlessImplied _ _ channel).grows
    ((steady_addUnlessImplied _ _ d).wellFormed hp₁ h₁) h₂
  refine ⟨?_, ?_⟩
  · rw [(hgrows₁.trans (hgrows₂.trans hgrows₃)).enumerationLimit]
    exact size_of_encodeFrom hp hne hlimit hcapacity h
  · have huntouched : q.encodings = p.encodings :=
      ((untouched_addUnlessImplied _ _ channel).of_ok h₂).trans
        (((untouched_addUnlessImplied _ _ d).of_ok h₁).trans
          ((untouched_encodeFrom _ _ _ _).of_ok h))
    rw [encoding?_eq_none, huntouched]
    exact encoding?_eq_none.1 hnew

theorem encodes_of_encoding? (hp : p.WellFormed) (h : p.encoding? e = some encoding) :
    p.Encodes e encoding := by
  obtain ⟨entry, hfind, rfl⟩ := Option.map_eq_some_iff.1 h
  have heq := List.find?_some hfind
  rw [decide_eq_true_eq] at heq
  exact heq ▸ hp.encodings entry (List.mem_of_find?_eq_some hfind)

theorem steady_encode (e : Affine) : Steady (encode e) := by
  intro p
  refine (steady_bounds e p).bind fun ⟨lower, upper⟩ _ hb => ?_
  obtain ⟨hbounds, rfl⟩ := bounds_eq_ok.1 hb
  dsimp only
  split
  · exact steady_trueLiteral.bind (fun _ => Keeps.pure _) p
  · rename_i hne
    refine (Keeps.get p).bind fun _ _ hget => ?_
    obtain ⟨rfl, rfl⟩ := get_eq_ok.1 hget
    cases hnew : p.encoding? e with
    | some encoding => exact Keeps.pure _ p
    | none =>
      dsimp only
      split
      · exact Keeps.throw _ p
      rename_i hlimit
      split
      · exact Keeps.throw _ p
      · rename_i hcapacity
        intro hp
        refine (steady_encodeFrom _ _ _ _ p).bind (fun ⟨encoding, total, channel⟩ q₁ h => ?_) hp
        refine (steady_liftM _ q₁).bind fun d _ hd => ?_
        obtain ⟨hdiff, rfl⟩ := liftM_eq_ok.1 hd
        refine (steady_addUnlessImplied _ _ d q₁).bind fun _ q₂ h₁ => ?_
        refine (steady_addUnlessImplied _ _ channel q₂).bind fun _ q₃ h₂ => ?_
        refine KeepsAt.bind (fun hq₃ => ?_) fun _ q₄ _ => Keeps.pure _ q₄
        obtain ⟨hsize, hfree⟩ := size_and_free hp hne hlimit hcapacity hnew h h₁ h₂
        exact ⟨grows_withEncoding q₃ e encoding, wellFormed_withEncoding hq₃
          (encodes_of_encoding hp hbounds h hdiff h₁ h₂) hsize hfree⟩

theorem encodes_of_constant {l : Literal} {lower : Int} (hp : p.WellFormed)
    (hb : p.bounds e = .ok (lower, lower)) (h : trueLiteral p = .ok l q) :
    q.Encodes e [(lower, l)] := by
  have hdefines := defines_of_trueLiteral hp h
  have hbq := hdefines.grows.bounds hb
  refine ⟨⟨lower, lower, hbq, by simp [interval]⟩, ?_, fun x hx => ?_⟩
  · simpa using isTruth_of_trueLiteral hp h
  · have hmem := mem_of_bounds hbq hx
    have heval : e.eval x = lower := by omega
    simpa [Encoding.Selects, heval] using hdefines.sound x hx

/-- In every solution the encoding singles out the value of the form, and nothing is excluded. -/
theorem encodes_of_encode (hp : p.WellFormed) (h : encode e p = .ok encoding q) :
    q.Encodes e encoding ∧ p.Defines q fun x => encoding.Selects x (e.eval x) := by
  suffices q.Encodes e encoding ∧ p.Defines q fun _ => True from
    ⟨this.1, this.2.weaken fun x hx _ => this.1.selects x hx⟩
  unfold encode at h
  simp only [bind_eq_ok, bounds_eq_ok] at h
  obtain ⟨⟨lower, upper⟩, _, ⟨hb, rfl⟩, h⟩ := h
  dsimp only at h
  split at h
  · rename_i heq
    -- a single value gets the true literal
    simp only [bind_eq_ok, pure_eq_ok] at h
    obtain ⟨l, _, hl, rfl, rfl⟩ := h
    exact ⟨encodes_of_constant hp (heq ▸ hb) hl,
      (defines_of_trueLiteral hp hl).weaken fun _ _ _ => trivial⟩
  rename_i hne
  simp only [bind_eq_ok, get_eq_ok] at h
  obtain ⟨_, _, ⟨rfl, rfl⟩, h⟩ := h
  cases hshared : p.encoding? e with
  | some shared =>
    rw [hshared] at h
    obtain ⟨rfl, rfl⟩ := pure_eq_ok.1 h
    exact ⟨encodes_of_encoding? hp hshared, Extends.refl hp fun _ _ => trivial⟩
  | none =>
    rw [hshared] at h
    dsimp only at h
    split at h
    · cases throw_eq_ok.1 h
    rename_i hlimit
    split at h
    · cases throw_eq_ok.1 h
    rename_i hcapacity
    simp only [bind_eq_ok, liftM_eq_ok, modify_eq_ok, pure_eq_ok] at h
    obtain ⟨⟨fresh, total, channel⟩, q₁, h₁, d, _, ⟨hd, rfl⟩, _, q₂, h₂, _, q₃, h₃, _, _, rfl,
      rfl, rfl⟩ := h
    have hdefines := defines_of_encoding hp hb h₁ hd h₂ h₃
    have hencodes := encodes_of_encoding hp hb h₁ hd h₂ h₃
    have hgrows := grows_withEncoding q₃ e fresh
    obtain ⟨hsize, hfree⟩ := size_and_free hp hne hlimit hcapacity hshared h₁ h₂ h₃
    refine ⟨hencodes.mono hgrows, hdefines.grows.trans hgrows, ?_, fun _ _ => trivial,
      hdefines.complete⟩
    exact wellFormed_withEncoding hdefines.wellFormed hencodes hsize hfree

end Lowering

end Linearization
