import Linearization.Proofs.Ilp.Calls

/-!
# Shared encodings

The encodings that a program keeps are shared by unrelated constructs and outlive calls that fail.
In every program that calls have built, each of them still is the encoding of its form, and asking
for it again gives it back and appends nothing, however many calls come in between
(`Reaches.encodings_shared`).
-/

namespace Linearization

theorem pairwise_interval (lower upper : Int) : (interval lower upper).Pairwise (· < ·) := by
  unfold interval
  rw [List.pairwise_map]
  refine List.pairwise_lt_range.imp fun {i j} hij => ?_
  omega

namespace Ilp

variable {p q : Ilp} {e : Affine} {encoding : Encoding} {entry : Affine × Encoding}
  {x : Assignment}

theorem encoding?_of_mem (hp : p.WellFormed) (h : entry ∈ p.encodings) :
    p.encoding? entry.1 = some entry.2 := by
  cases hfind : p.encoding? entry.1 with
  | none => exact absurd (List.mem_map_of_mem h) (Lowering.encoding?_eq_none.1 hfind)
  | some found =>
    obtain ⟨other, hother, rfl⟩ := Option.map_eq_some_iff.1 hfind
    have hkey : other.1 = entry.1 := by simpa using List.find?_some hother
    have hsame : other = entry := List.inj_on_of_nodup_map hp.distinct
      (List.mem_of_find?_eq_some hother) h hkey
    rw [hsame]

/-- A form with a kept encoding has more than one value, or none. -/
theorem bounds_of_mem (hp : p.WellFormed) (h : entry ∈ p.encodings) :
    ∃ lower upper, p.bounds entry.1 = .ok (lower, upper) ∧ lower ≠ upper ∧
      entry.2.map Prod.fst = interval lower upper := by
  obtain ⟨lower, upper, hb, hvalues⟩ := (hp.encodings entry h).values
  refine ⟨lower, upper, hb, fun heq => (hp.sizes entry h).1 ?_, hvalues⟩
  have hlength := congrArg List.length hvalues
  rw [List.length_map, interval, List.length_map, List.length_range] at hlength
  omega

theorem encode_of_mem (hp : p.WellFormed) (h : entry ∈ p.encodings) :
    Lowering.encode entry.1 p = .ok entry.2 p := by
  obtain ⟨lower, upper, hb, hne, -⟩ := bounds_of_mem hp h
  unfold Lowering.encode
  rw [bind_eq_ok]
  refine ⟨(lower, upper), p, Lowering.bounds_eq_ok.2 ⟨hb, rfl⟩, ?_⟩
  dsimp only
  rw [if_neg hne, bind_eq_ok]
  refine ⟨p, p, rfl, ?_⟩
  rw [encoding?_of_mem hp h]
  rfl

/-- The encoding lists the values of the form in increasing order, at most `limit` of them; in every
solution exactly one of its literals is true, that of the value of the form; and whatever is called
in between, it is what asking for it gives. -/
structure Shares (p : Ilp) (limit : Nat) (e : Affine) (encoding : Encoding) : Prop where
  values : ∃ lower upper, p.bounds e = .ok (lower, upper) ∧
    (encoding.map Prod.fst).Pairwise (· < ·) ∧
    ∀ v, v ∈ encoding.map Prod.fst ↔ lower ≤ v ∧ v ≤ upper
  length_le : encoding.length ≤ limit
  selects : ∀ x, p.Solves x → ∃ selected ∈ encoding, selected.2.Holds x ∧
    selected.1 = e.eval x ∧ ∀ other ∈ encoding, other.2.Holds x → other = selected
  again : ∀ q, p.Reaches q → Lowering.encode e q = .ok encoding q

theorem exists_selected (h : p.Encodes e encoding) (hx : p.Solves x) :
    ∃ selected ∈ encoding, selected.2.Holds x ∧ selected.1 = e.eval x ∧
      ∀ other ∈ encoding, other.2.Holds x → other = selected := by
  obtain ⟨⟨selected, hmem, hvalue⟩, hiff⟩ := h.selects x hx
  obtain ⟨lower, upper, -, hvalues⟩ := h.values
  have hnodup : (encoding.map Prod.fst).Nodup := by
    rw [hvalues]
    exact Lowering.nodup_interval lower upper
  refine ⟨selected, hmem, (hiff selected hmem).2 hvalue, hvalue, fun other hother hholds => ?_⟩
  refine List.inj_on_of_nodup_map hnodup hother hmem ?_
  exact ((hiff other hother).1 hholds).trans hvalue.symm

namespace Reaches

theorem mem_encodings (h : p.Reaches q) (hp : p.WellFormed) (hmem : entry ∈ p.encodings) :
    entry ∈ q.encodings := (h.grows hp).encodings.subset hmem

theorem enumerationLimit {limit : Nat} (h : (empty limit).Reaches p) :
    p.enumerationLimit = limit := (h.grows (.empty limit)).enumerationLimit

theorem shares_of_mem {limit : Nat} (h : (empty limit).Reaches p) (hmem : entry ∈ p.encodings) :
    p.Shares limit entry.1 entry.2 := by
  have hp : p.WellFormed := h.wellFormed (.empty limit)
  obtain ⟨lower, upper, hb, -, hvalues⟩ := bounds_of_mem hp hmem
  refine ⟨⟨lower, upper, hb, ?_, fun v => ?_⟩, ?_, fun x hx => ?_, fun q hq => ?_⟩
  · rw [hvalues]
    exact pairwise_interval lower upper
  · rw [hvalues, mem_interval]
  · rw [← h.enumerationLimit]
    exact (hp.sizes entry hmem).2.1
  · exact exists_selected (hp.encodings entry hmem) hx
  · exact encode_of_mem (hq.wellFormed hp) (hq.mem_encodings hp hmem)

/-- Every encoding kept by a program that calls have built is shared as long as the program is built
on, and asking for an encoding excludes no solution. -/
theorem encodings_shared {limit : Nat} (h : (empty limit).Reaches p) :
    (∀ entry ∈ p.encodings, p.Shares limit entry.1 entry.2) ∧
      ∀ e encoding q, Lowering.encode e p = .ok encoding q → ∀ x, p.Solves x →
        ∃ y, AgreeBelow p.columns.size x y ∧ q.Solves y := by
  have hp : p.WellFormed := h.wellFormed (.empty limit)
  refine ⟨fun entry hmem => h.shares_of_mem hmem, fun e encoding q hrun x hx => ?_⟩
  exact (Lowering.encodes_of_encode hp hrun).2.complete x hx trivial

/-- An encoding made for a product, kept by a program in which a later call has failed. -/
theorem encodings_shared_of_product :
    let p := (empty 4096).afterCalls [.newInt 0 2 "x", .newInt 0 5 "y",
      .product (.ofColumn 0) (.ofColumn 1), .quotient (.ofColumn 1) (.ofColumn 0)]
    p.encodings.length = 1 ∧ (∀ entry ∈ p.encodings, p.Shares 4096 entry.1 entry.2) ∧
      ∃ encoding q, Lowering.encode (.ofColumn 1) p = .ok encoding q ∧
        ∀ x, p.Solves x → ∃ y, AgreeBelow p.columns.size x y ∧ q.Solves y := by
  intro p
  have hp : (empty 4096).Reaches p := Reaches.refl.afterCalls _
  have hrun : succeedsWith (Lowering.encode (.ofColumn 1)) p (fun _ _ => true) = true := by
    decide +kernel
  obtain ⟨encoding, q, hencode, -⟩ := exists_of_succeedsWith hrun
  obtain ⟨hshared, hextends⟩ := encodings_shared hp
  exact ⟨by decide +kernel, hshared, encoding, q, hencode, hextends _ encoding q hencode⟩

end Reaches

end Ilp

end Linearization
