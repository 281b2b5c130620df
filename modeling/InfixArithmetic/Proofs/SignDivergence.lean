import InfixArithmetic.Proofs.SignScope
/-!
# Where the scope of a sign matters

For every shape of an expression that does not conform there are literals for which the
evaluator returns a value other than the conventional one. Truncated division commutes with
signs, so it is enough to follow absolute values, here called sizes: a term in which two
factors behind a captor differ from one gets two sizes, and ones and zeros carry both of them
out of every surrounding. So the conforming shapes are exactly those on which the evaluator
is right whatever the literals: `evaluate_eq_exact_iff`.
-/

namespace InfixArithmetic.Grammar

open Evaluation

namespace Phrase

variable {α : Type}

def shape {rank : Rank} : Phrase α rank → Phrase Unit rank
  | literal _ => .literal ()
  | group e => .group e.shape
  | sign f => .sign f.shape
  | ofFactor f => .ofFactor f.shape
  | product t op hop f => .product t.shape op hop f.shape
  | ofTerm t => .ofTerm t.shape
  | sum e op hop t => .sum e.shape op hop t.shape

theorem signed_shape {rank : Rank} (t : Phrase α rank) : t.shape.signed = t.signed := by
  cases t <;> rfl

theorem captor_shape {rank : Rank} (t : Phrase α rank) : t.shape.captor = t.captor := by
  induction t with
  | product t op hop f iht ihf => rw [shape, captor, captor, iht, signed_shape]
  | literal | group | sign | ofFactor | ofTerm | sum => rfl

theorem isProduct_captor {rank : Rank} (t : Phrase α rank) {o : Operator}
    (hcaptor : t.captor = some o) : o.IsProduct := by
  induction t with
  | product t op hop f iht ihf =>
    rw [captor, Option.or_eq_some_iff] at hcaptor
    rcases hcaptor with hcaptor | ⟨-, hcaptor⟩
    · exact iht hcaptor
    · simp only [Option.ite_none_right_eq_some, Option.some.injEq] at hcaptor
      rwa [← hcaptor.2]
  | literal | group | sign | ofFactor | ofTerm | sum => cases hcaptor

theorem conforms_shape {rank : Rank} (t : Phrase α rank) : t.shape.Conforms ↔ t.Conforms := by
  induction t with
  | literal a => exact Iff.rfl
  | group e ih => exact ih
  | sign f ih => exact ih
  | ofFactor f ih => exact ih
  | product t op hop f iht ihf => rw [shape, Conforms, Conforms, iht, ihf, captor_shape]
  | ofTerm t ih => exact ih
  | sum e op hop t ihe iht => exact and_congr ihe iht

end Phrase

/-! ## Sizes -/

def Sized (n : Nat) (x : Except EvalError Int) : Prop :=
  ∃ v, x = .ok v ∧ v.natAbs = n

/-- A check that lets small values pass; no size below exceeds the bound. -/
def Lenient (check : Int → Except EvalError Int) : Prop :=
  ∀ v : Int, v.natAbs ≤ 256 → check v = .ok v

theorem lenient_ok : Lenient .ok := fun _ _ => rfl

theorem lenient_checked : Lenient checked := by
  intro v hsmall
  refine checked_eq_ok_iff.2 ⟨rfl, ?_, ?_⟩
  · unfold minValue
    omega
  · unfold maxValue
    omega

def scaled : Operator → Nat → Nat → Nat
  | .div, a, b => a / b
  | _, a, b => a * b

theorem scaled_one (op : Operator) (a : Nat) : scaled op a 1 = a := by
  cases op with
  | div => exact Nat.div_one a
  | add | sub | mul => exact Nat.mul_one a

variable {check : Int → Except EvalError Int} {x y : Except EvalError Int} {a b : Nat}

theorem Sized.combine_product (hlenient : Lenient check) {op : Operator}
    (hop : op.IsProduct) (hx : Sized a x) (hy : Sized b y) (hdiv : op = .div → b ≠ 0)
    (hsmall : scaled op a b ≤ 256) : Sized (scaled op a b) (combine check op x y) := by
  obtain ⟨v, rfl, hv⟩ := hx
  obtain ⟨w, rfl, hw⟩ := hy
  have hmeaning : ∃ u, op.meaning v w = .ok u ∧ u.natAbs = scaled op a b := by
    cases hop with
    | mul =>
      refine ⟨v * w, rfl, ?_⟩
      rw [Int.natAbs_mul, hv, hw]
      rfl
    | div =>
      have hzero : w ≠ 0 := by
        have hb := hdiv rfl
        omega
      refine ⟨v.tdiv w, if_neg hzero, ?_⟩
      rw [Int.natAbs_tdiv, hv, hw]
      rfl
  obtain ⟨u, hu, hsize⟩ := hmeaning
  refine ⟨u, combine_eq_ok_iff.2 ⟨v, w, u, rfl, rfl, hu, ?_⟩, hsize⟩
  exact hlenient u (by omega)

theorem Sized.combine_one (hlenient : Lenient check) {op : Operator} (hop : op.IsProduct)
    (hx : Sized a x) (hy : Sized 1 y) (hsmall : a ≤ 256) : Sized a (combine check op x y) := by
  have hproduct := hx.combine_product hlenient hop hy (fun _ => Nat.one_ne_zero)
    (by rwa [scaled_one])
  rwa [scaled_one] at hproduct

theorem Sized.combine_zero (hlenient : Lenient check) {op : Operator} (hop : op.IsSum)
    (hx : Sized a x) (hy : Sized b y) (hzero : a = 0 ∨ b = 0) (hsmall : a + b ≤ 256) :
    Sized (a + b) (combine check op x y) := by
  obtain ⟨v, rfl, hv⟩ := hx
  obtain ⟨w, rfl, hw⟩ := hy
  have hmeaning : ∃ u, op.meaning v w = .ok u ∧ u.natAbs = a + b := by
    cases hop with
    | add => exact ⟨v + w, rfl, by omega⟩
    | sub => exact ⟨v - w, rfl, by omega⟩
  obtain ⟨u, hu, hsize⟩ := hmeaning
  refine ⟨u, combine_eq_ok_iff.2 ⟨v, w, u, rfl, rfl, hu, ?_⟩, hsize⟩
  exact hlenient u (by omega)

theorem Sized.negate (hlenient : Lenient check) (hy : Sized b y) (hsmall : b ≤ 256) :
    Sized b (combine check .sub (.ok 0) y) := by
  have hzero : Sized 0 (.ok 0) := ⟨0, rfl, rfl⟩
  have hnegated := hzero.combine_zero hlenient .sub hy (.inl rfl) (by omega)
  rwa [Nat.zero_add] at hnegated

def Sends (frames : List Frame) (n b : Nat) : Prop :=
  ∀ y, Sized n y → Sized b (surround checked frames y)

theorem Sends.replicate_sign {frames : List Frame} {n b : Nat} (hsends : Sends frames n b)
    (hsmall : n ≤ 256) (signs : Nat) : Sends (List.replicate signs .sign ++ frames) n b := by
  induction signs with
  | zero => exact hsends
  | succ signs ih =>
    intro y hy
    exact ih _ (hy.negate lenient_checked hsmall)

theorem Sends.cons_product {frames : List Frame} {c : Grouping .chain} {op : Operator}
    {hop : op.IsProduct} {k n b : Nat} (hchain : Sized k c.value)
    (hsends : Sends frames (scaled op k n) b) (hdiv : op = .div → n ≠ 0) (hn : n ≤ 256)
    (hsmall : scaled op k n ≤ 256) : Sends (.product c op hop :: frames) n b := by
  intro y hy
  have hnegated := hy.negate lenient_checked hn
  exact hsends _ (hchain.combine_product lenient_checked hop hnegated hdiv hsmall)

/-! ## Shapes with given sizes -/

/-- The size that a phrase has for the evaluator. A term is held ready for more factors. -/
def Weighs : {rank : Rank} → Phrase Numeral rank → Nat → Prop
  | .factor, f, b => Sized b (SignedPrimary.primary f.regroup).value
  | .term, t, b =>
    ∃ k, k ≤ 256 ∧ Sized k (OpenTerm.chain t.regroup).value ∧
      Sends (OpenTerm.frames t.regroup) k b
  | .expression, e, b => Sized b (Grouping.value e.regroup)

/-- Some literals give a shape the size `a` conventionally and the size `b` for the
evaluator. -/
def Realizes {rank : Rank} (s : Phrase Unit rank) (a b : Nat) : Prop :=
  ∃ t : Phrase Numeral rank, t.shape = s ∧ Sized a t.exact ∧ Weighs t b

theorem realizes_literal {n : Nat} (hsmall : n ≤ 256) : Realizes (.literal ()) n n := by
  have hsize : ((Numeral.ofNat n).value : Int).natAbs = n := by
    rw [Numeral.value_ofNat, Int.natAbs_natCast]
  refine ⟨.literal (.ofNat n), rfl, ⟨_, rfl, hsize⟩, ⟨_, ?_, hsize⟩⟩
  exact lenient_checked _ (by rwa [hsize])

theorem Realizes.group {e : Phrase Unit .expression} {a b : Nat} (he : Realizes e a b) :
    Realizes (.group e) a b := by
  obtain ⟨t, rfl, hexact, hweighs⟩ := he
  exact ⟨.group t, rfl, hexact, hweighs⟩

theorem Realizes.sign {f : Phrase Unit .factor} {a b : Nat} (hf : Realizes f a b) :
    Realizes (.sign f) a b := by
  obtain ⟨t, rfl, ⟨v, hexact, hsize⟩, hweighs⟩ := hf
  refine ⟨.sign t, rfl, ⟨-v, ?_, by rw [Int.natAbs_neg, hsize]⟩, hweighs⟩
  rw [Phrase.exact, hexact]
  rfl

theorem Realizes.ofFactor {f : Phrase Unit .factor} {a b : Nat} (hf : Realizes f a b)
    (hsmall : b ≤ 256) : Realizes (.ofFactor f) a b := by
  obtain ⟨t, rfl, hexact, hweighs⟩ := hf
  have hnone : Sends [] b b := fun _ hy => hy
  have hframes := hnone.replicate_sign hsmall (SignedPrimary.signs t.regroup)
  rw [List.append_nil] at hframes
  exact ⟨.ofFactor t, rfl, hexact, b, hsmall, hweighs, hframes⟩

theorem Weighs.close {t : Phrase Numeral .term} {b : Nat} (ht : Weighs t b) :
    Sized b (OpenTerm.close t.regroup).value := by
  obtain ⟨k, -, hchain, hsends⟩ := ht
  rw [Grouping.value, OpenTerm.evalBy_close]
  exact hsends _ hchain

theorem Realizes.ofTerm {t : Phrase Unit .term} {a b : Nat} (ht : Realizes t a b) :
    Realizes (.ofTerm t) a b := by
  obtain ⟨t, rfl, hexact, hweighs⟩ := ht
  exact ⟨.ofTerm t, rfl, hexact, hweighs.close⟩

theorem Realizes.sum {e : Phrase Unit .expression} {t : Phrase Unit .term} {a b a' b' : Nat}
    {op : Operator} (hop : op.IsSum) (he : Realizes e a b) (ht : Realizes t a' b')
    (hzero : a = 0 ∧ b = 0 ∨ a' = 0 ∧ b' = 0) (hexact : a + a' ≤ 256) (hsmall : b + b' ≤ 256) :
    Realizes (.sum e op hop t) (a + a') (b + b') := by
  obtain ⟨e, rfl, heexact, heweighs⟩ := he
  obtain ⟨t, rfl, htexact, htweighs⟩ := ht
  refine ⟨.sum e op hop t, rfl, ?_, ?_⟩
  · exact heexact.combine_zero lenient_ok hop htexact (by omega) hexact
  · exact Sized.combine_zero lenient_checked hop heweighs htweighs.close (by omega) hsmall

theorem sends_product_signed {t : Phrase Numeral .term} {op : Operator}
    {hop : op.IsProduct} {f : Phrase Numeral .factor} {k n b : Nat}
    (hsigned : f.signed = true) (hchain : Sized k (OpenTerm.chain t.regroup).value)
    (hsends : Sends (OpenTerm.frames t.regroup) (scaled op k n) b) (hdiv : op = .div → n ≠ 0)
    (hn : n ≤ 256) (hsmall : scaled op k n ≤ 256) :
    Sends (OpenTerm.frames (Phrase.product t op hop f).regroup) n b := by
  obtain ⟨signs, -, hregroup⟩ := Phrase.regroup_product_signed t hop hsigned
  rw [hregroup]
  exact (Sends.cons_product hchain hsends hdiv hn hsmall).replicate_sign hn signs

theorem weighs_product {t : Phrase Numeral .term} {op : Operator} {hop : op.IsProduct}
    {f : Phrase Numeral .factor} {k q b : Nat}
    (hchain : Sized k (OpenTerm.chain t.regroup).value) (hf : Weighs f q)
    (hsends : Sends (OpenTerm.frames t.regroup) (scaled op k q) b) (hdiv : op = .div → q ≠ 0)
    (hq : q ≤ 256) (hsmall : scaled op k q ≤ 256) : Weighs (.product t op hop f) b := by
  cases hsigned : f.signed with
  | false =>
    obtain ⟨-, hregroup⟩ := Phrase.regroup_product_unsigned t hop hsigned
    refine ⟨scaled op k q, hsmall, ?_, ?_⟩
    · rw [hregroup]
      exact hchain.combine_product lenient_checked hop hf hdiv hsmall
    · rw [hregroup]
      exact hsends
  | true =>
    obtain ⟨_, -, hregroup⟩ := Phrase.regroup_product_signed t hop hsigned
    refine ⟨q, hq, ?_, sends_product_signed hsigned hchain hsends hdiv hq hsmall⟩
    rw [hregroup]
    exact hf

theorem Realizes.product_one {t : Phrase Unit .term} {op : Operator} {hop : op.IsProduct}
    {f : Phrase Unit .factor} {a b : Nat} (ht : Realizes t a b) (hf : Realizes f 1 1)
    (hsmall : a ≤ 256) : Realizes (.product t op hop f) a b := by
  obtain ⟨t, rfl, htexact, k, hk, hchain, hsends⟩ := ht
  obtain ⟨f, rfl, hfexact, hfweighs⟩ := hf
  refine ⟨.product t op hop f, rfl, ?_, ?_⟩
  · exact htexact.combine_one lenient_ok hop hfexact hsmall
  · refine weighs_product hchain hfweighs ?_ (fun _ => Nat.one_ne_zero) (by decide) ?_
    · rwa [scaled_one]
    · rwa [scaled_one]

/-- Every shape has literals of any small size for which the two readings agree in size. -/
theorem realizes_same {rank : Rank} (s : Phrase Unit rank) {n : Nat} (hsmall : n ≤ 256) :
    Realizes s n n := by
  induction s generalizing n with
  | literal a => exact realizes_literal hsmall
  | group e ih => exact (ih hsmall).group
  | sign f ih => exact (ih hsmall).sign
  | ofFactor f ih => exact (ih hsmall).ofFactor hsmall
  | product t op hop f iht ihf => exact (iht hsmall).product_one (ihf (by decide)) hsmall
  | ofTerm t ih => exact (ih hsmall).ofTerm
  | sum e op hop t ihe iht =>
    exact (ihe hsmall).sum hop (iht (Nat.zero_le 256)) (.inr ⟨rfl, rfl⟩) hsmall hsmall

theorem Realizes.sum_left {e : Phrase Unit .expression} (t : Phrase Unit .term) {op : Operator}
    (hop : op.IsSum) {a b : Nat} (he : Realizes e a b) (ha : a ≤ 256) (hb : b ≤ 256) :
    Realizes (.sum e op hop t) a b :=
  he.sum hop (realizes_same t (Nat.zero_le 256)) (.inr ⟨rfl, rfl⟩) ha hb

theorem Realizes.sum_right (e : Phrase Unit .expression) {t : Phrase Unit .term} {op : Operator}
    (hop : op.IsSum) {a b : Nat} (ht : Realizes t a b) (ha : a ≤ 256) (hb : b ≤ 256) :
    Realizes (.sum e op hop t) a b := by
  have hsum := (realizes_same e (Nat.zero_le 256)).sum hop ht (.inl ⟨rfl, rfl⟩)
    (by omega) (by omega)
  rwa [Nat.zero_add, Nat.zero_add] at hsum

/-! ## Shapes with two sizes -/

/-- What a captor and the size `x` in front of it make of a size. -/
def caught : Option Operator → Nat → Nat → Nat
  | none, _, n => n
  | some op, x, n => scaled op x n

/-- A term whose chain has the size `k` and whose captor has the size `x` in front of it. -/
structure Primed (t : Phrase Numeral .term) (x k : Nat) : Prop where
  exact : Sized (caught t.captor x k) t.exact
  chain : Sized k (OpenTerm.chain t.regroup).value
  sends : ∀ n, (t.captor = some .div → n ≠ 0) → n ≤ 256 → caught t.captor x n ≤ 256 →
    Sends (OpenTerm.frames t.regroup) n (caught t.captor x n)

theorem Primed.product_unsigned {t : Phrase Numeral .term} {op : Operator}
    {hop : op.IsProduct} {f : Phrase Numeral .factor} {x k : Nat} (ht : Primed t x k)
    (hexact : Sized 1 f.exact) (hweighs : Weighs f 1) (hsigned : f.signed = false)
    (hk : k ≤ 256) (hsmall : caught t.captor x k ≤ 256) : Primed (.product t op hop f) x k := by
  obtain ⟨-, hregroup⟩ := Phrase.regroup_product_unsigned t hop hsigned
  have hcaptor := t.captor_product_unsigned hop hsigned
  refine ⟨?_, ?_, ?_⟩
  · rw [hcaptor]
    exact ht.exact.combine_one lenient_ok hop hexact hsmall
  · rw [hregroup]
    exact ht.chain.combine_one lenient_checked hop hweighs hk
  · rw [hcaptor, hregroup]
    exact ht.sends

theorem Primed.product_first {t : Phrase Numeral .term} {op : Operator}
    {hop : op.IsProduct} {f : Phrase Numeral .factor} {x k : Nat} (ht : Primed t x x)
    (hnone : t.captor = none) (hexact : Sized k f.exact) (hweighs : Weighs f k)
    (hsigned : f.signed = true) (hdiv : op = .div → k ≠ 0) (hsmall : scaled op x k ≤ 256) :
    Primed (.product t op hop f) x k := by
  obtain ⟨_, -, hregroup⟩ := Phrase.regroup_product_signed t hop hsigned
  have hcaptor := t.captor_product_signed hop hsigned
  rw [hnone, Option.none_or] at hcaptor
  obtain ⟨htexact, htchain, htsends⟩ := ht
  rw [hnone] at htexact htsends
  refine ⟨?_, ?_, ?_⟩
  · rw [hcaptor]
    exact htexact.combine_product lenient_ok hop hexact hdiv hsmall
  · rw [hregroup]
    exact hweighs
  · rw [hcaptor]
    intro n hn hle hcaught
    have hsends := htsends (scaled op x n) (by simp) hcaught hcaught
    exact sends_product_signed hsigned htchain hsends (fun h => hn (congrArg some h)) hle hcaught

theorem Primed.product_again {t : Phrase Numeral .term} {hop : Operator.mul.IsProduct}
    {f : Phrase Numeral .factor} {x k : Nat} (ht : Primed t x 1) (hmul : t.captor = some .mul)
    (hexact : Sized k f.exact) (hweighs : Weighs f k) (hsigned : f.signed = true)
    (hsmall : x * k ≤ 256) : Primed (.product t .mul hop f) x k := by
  obtain ⟨_, -, hregroup⟩ := Phrase.regroup_product_signed t hop hsigned
  have hcaptor := t.captor_product_signed hop hsigned
  rw [hmul, Option.some_or] at hcaptor
  have hleft : caught (some .mul) x 1 = x := Nat.mul_one x
  have hright : ∀ n, scaled .mul 1 n = n := Nat.one_mul
  have hneDiv : Operator.mul ≠ .div := by decide
  obtain ⟨htexact, htchain, htsends⟩ := ht
  rw [hmul] at htexact htsends
  rw [hleft] at htexact
  refine ⟨?_, ?_, ?_⟩
  · rw [hcaptor]
    exact htexact.combine_product lenient_ok hop hexact (absurd · hneDiv) hsmall
  · rw [hregroup]
    exact hweighs
  · rw [hcaptor]
    intro n _ hle hcaught
    have hsends := htsends n (by simp) hle hcaught
    refine sends_product_signed hsigned htchain ?_ (absurd · hneDiv) hle ?_
    · rwa [hright]
    · rwa [hright]

theorem exists_primed : (s : Phrase Unit .term) → s.Conforms → ∀ {x k : Nat}, x ≠ 0 →
    x ≤ 256 → k ≠ 0 → k ≤ 256 → caught s.captor x k ≤ 256 →
    ∃ t : Phrase Numeral .term, t.shape = s ∧ Primed t x k
  | .ofFactor f, _, x, k, _, _, _, hk, _ => by
    obtain ⟨f, rfl, hexact, hweighs⟩ := realizes_same f hk
    refine ⟨.ofFactor f, rfl, hexact, hweighs, fun n _ hn _ => ?_⟩
    have hnone : Sends [] n n := fun _ hy => hy
    have hframes := hnone.replicate_sign hn (SignedPrimary.signs f.regroup)
    rwa [List.append_nil] at hframes
  | .product s op hop f, hconforms, x, k, hx0, hx, hk0, hk, hcaught => by
    obtain ⟨hs, -, hcaptor⟩ := hconforms
    cases hsigned : f.signed with
    | false =>
      rw [s.captor_product_unsigned hop hsigned] at hcaught
      obtain ⟨t, rfl, ht⟩ := exists_primed s hs hx0 hx hk0 hk hcaught
      obtain ⟨f, rfl, hexact, hweighs⟩ := realizes_same f (show 1 ≤ 256 by decide)
      rw [Phrase.captor_shape] at hcaught
      rw [Phrase.signed_shape] at hsigned
      exact ⟨.product t op hop f, rfl, ht.product_unsigned hexact hweighs hsigned hk hcaught⟩
    | true =>
      rw [s.captor_product_signed hop hsigned] at hcaught
      obtain ⟨f, rfl, hexact, hweighs⟩ := realizes_same f hk
      rw [Phrase.signed_shape] at hsigned
      cases hother : s.captor with
      | none =>
        rw [hother] at hcaught
        obtain ⟨t, rfl, ht⟩ := exists_primed s hs hx0 hx hx0 hx (by rwa [hother])
        rw [Phrase.captor_shape] at hother
        exact ⟨.product t op hop f, rfl,
          ht.product_first hother hexact hweighs hsigned (fun _ => hk0) hcaught⟩
      | some o =>
        obtain ⟨rfl, rfl⟩ := hcaptor o hother
        rw [hother] at hcaught
        have hleft : caught (some .mul) x 1 = x := Nat.mul_one x
        obtain ⟨t, rfl, ht⟩ := exists_primed s hs hx0 hx Nat.one_ne_zero (by decide)
          (by rwa [hother, hleft])
        rw [Phrase.captor_shape] at hother
        exact ⟨.product t .mul hop f, rfl,
          ht.product_again hother hexact hweighs hsigned hcaught⟩

/-- The sizes of a primed term and of a factor with the sizes `a` and `b` behind it are small,
and none that divides is zero. -/
def Fitting (op : Operator) (o : Option Operator) (x k a b : Nat) : Prop :=
  (x ≠ 0 ∧ x ≤ 256) ∧ (k ≠ 0 ∧ k ≤ 256) ∧ caught o x k ≤ 256 ∧
    (op = .div → a ≠ 0 ∧ b ≠ 0) ∧ b ≤ 256 ∧ scaled op k b ≤ 256 ∧
    (o = some .div → scaled op k b ≠ 0) ∧ scaled op (caught o x k) a ≤ 256 ∧
    caught o x (scaled op k b) ≤ 256

instance (op : Operator) (o : Option Operator) (x k a b : Nat) :
    Decidable (Fitting op o x k a b) :=
  inferInstanceAs (Decidable (_ ∧ _))

theorem realizes_primed {s : Phrase Unit .term} {op : Operator} (hop : op.IsProduct)
    {f : Phrase Unit .factor} {o : Option Operator} {a b : Nat} (hs : s.Conforms)
    (hcaptor : s.captor = o) (hf : Realizes f a b) {x k : Nat}
    (hfitting : Fitting op o x k a b) :
    Realizes (.product s op hop f) (scaled op (caught o x k) a)
      (caught o x (scaled op k b)) := by
  obtain ⟨⟨hx0, hx⟩, ⟨hk0, hk⟩, hcaught, hdiv, hb, hscaled, hinner, hexact, houter⟩ := hfitting
  subst hcaptor
  obtain ⟨t, rfl, ht⟩ := exists_primed s hs hx0 hx hk0 hk hcaught
  obtain ⟨f, rfl, hfexact, hfweighs⟩ := hf
  rw [Phrase.captor_shape] at hcaught hinner hexact houter ⊢
  refine ⟨.product t op hop f, rfl, ?_, ?_⟩
  · exact ht.exact.combine_product lenient_ok hop hfexact (fun h => (hdiv h).1) hexact
  · exact weighs_product ht.chain hfweighs (ht.sends _ hinner hscaled houter)
      (fun h => (hdiv h).2) hb hscaled

structure Apart (a b : Nat) : Prop where
  ne : a ≠ b
  left : a ≠ 0 ∧ a ≤ 16
  right : b ≠ 0 ∧ b ≤ 16

theorem Apart.symm {a b : Nat} (hapart : Apart a b) : Apart b a :=
  ⟨hapart.ne.symm, hapart.right, hapart.left⟩

/-- Behind a captor the two readings of one more factor part, unless both multiply. -/
theorem exists_apart_of_captor {s : Phrase Unit .term} {op o : Operator}
    {hop : op.IsProduct} {f : Phrase Unit .factor} (hs : s.Conforms)
    (hcaptor : s.captor = some o) (hparts : ¬ (o = .mul ∧ op = .mul)) :
    ∃ a b, Apart a b ∧ Realizes (.product s op hop f) a b := by
  cases s.isProduct_captor hcaptor with
  | mul =>
    cases hop with
    | mul => exact absurd ⟨rfl, rfl⟩ hparts
    | div =>
      -- 2 * 3 / 2 is three, and 2 * (3 / 2) is two
      have hfitting : Fitting .div (some .mul) 2 3 2 2 := by decide
      have hf := realizes_same f (show 2 ≤ 256 by decide)
      exact ⟨3, 2, ⟨by decide, by decide, by decide⟩, realizes_primed _ hs hcaptor hf hfitting⟩
  | div =>
    cases hop with
    | mul =>
      -- 4 / 1 * 4 is sixteen, and 4 / (1 * 4) is one
      have hfitting : Fitting .mul (some .div) 4 1 4 4 := by decide
      have hf := realizes_same f (show 4 ≤ 256 by decide)
      exact ⟨16, 1, ⟨by decide, by decide, by decide⟩, realizes_primed _ hs hcaptor hf hfitting⟩
    | div =>
      -- 4 / 2 / 2 is one, and 4 / (2 / 2) is four
      have hfitting : Fitting .div (some .div) 4 2 2 2 := by decide
      have hf := realizes_same f (show 2 ≤ 256 by decide)
      exact ⟨1, 4, ⟨by decide, by decide, by decide⟩, realizes_primed _ hs hcaptor hf hfitting⟩

theorem exists_apart_of_factor {s : Phrase Unit .term} {op : Operator}
    {hop : op.IsProduct} {f : Phrase Unit .factor} {a b : Nat} (hs : s.Conforms)
    (hcaptor : ∀ o, s.captor = some o → o = .mul ∧ op = .mul) (hapart : Apart a b)
    (hf : Realizes f a b) : ∃ a b, Apart a b ∧ Realizes (.product s op hop f) a b := by
  obtain ⟨ha0, ha⟩ := hapart.left
  obtain ⟨hb0, hb⟩ := hapart.right
  have hproduct : a * b ≤ 16 * 16 := Nat.mul_le_mul ha hb
  have hpositive : a * b ≠ 0 := Nat.mul_ne_zero ha0 hb0
  have hleft : a * b / a = b := Nat.mul_div_cancel_left b (by omega)
  have hright : a * b / b = a := Nat.mul_div_cancel a (by omega)
  cases hcaught : s.captor with
  | none =>
    cases hop with
    | mul =>
      have hrealizes := realizes_primed (x := 1) (k := 1) .mul hs hcaught hf (by
        simp only [Fitting, caught, scaled]
        omega)
      simp only [caught, scaled, Nat.one_mul] at hrealizes
      exact ⟨a, b, hapart, hrealizes⟩
    | div =>
      have hrealizes := realizes_primed (x := 1) (k := a * b) .div hs hcaught hf (by
        simp only [Fitting, caught, scaled, hleft, hright]
        omega)
      simp only [caught, scaled, hleft, hright] at hrealizes
      exact ⟨b, a, hapart.symm, hrealizes⟩
  | some o =>
    obtain ⟨rfl, rfl⟩ := hcaptor o hcaught
    have hrealizes := realizes_primed (x := 1) (k := 1) .mul hs hcaught hf (by
      simp only [Fitting, caught, scaled]
      omega)
    simp only [caught, scaled, Nat.one_mul] at hrealizes
    exact ⟨a, b, hapart, hrealizes⟩

theorem exists_apart {rank : Rank} (s : Phrase Unit rank) (hconforms : ¬ s.Conforms) :
    ∃ a b, Apart a b ∧ Realizes s a b := by
  induction s with
  | literal a => exact absurd trivial hconforms
  | group e ih =>
    obtain ⟨a, b, hapart, he⟩ := ih hconforms
    exact ⟨a, b, hapart, he.group⟩
  | sign f ih =>
    obtain ⟨a, b, hapart, hf⟩ := ih hconforms
    exact ⟨a, b, hapart, hf.sign⟩
  | ofFactor f ih =>
    obtain ⟨a, b, hapart, hf⟩ := ih hconforms
    have hsmall := hapart.right.2
    exact ⟨a, b, hapart, hf.ofFactor (by omega)⟩
  | product t op hop f iht ihf =>
    by_cases ht : t.Conforms
    · by_cases hcaptor : ∀ o, t.captor = some o → o = .mul ∧ op = .mul
      · have hf : ¬ f.Conforms := fun hf => hconforms ⟨ht, hf, hcaptor⟩
        obtain ⟨a, b, hapart, hf⟩ := ihf hf
        exact exists_apart_of_factor ht hcaptor hapart hf
      · obtain ⟨o, hparts⟩ := not_forall.1 hcaptor
        obtain ⟨ho, hparts⟩ := Classical.not_imp.1 hparts
        exact exists_apart_of_captor ht ho hparts
    · obtain ⟨a, b, hapart, ht⟩ := iht ht
      have hsmall := hapart.left.2
      exact ⟨a, b, hapart, ht.product_one (realizes_same f (by decide)) (by omega)⟩
  | ofTerm t ih =>
    obtain ⟨a, b, hapart, ht⟩ := ih hconforms
    exact ⟨a, b, hapart, ht.ofTerm⟩
  | sum e op hop t ihe iht =>
    by_cases he : e.Conforms
    · have ht : ¬ t.Conforms := fun ht => hconforms ⟨he, ht⟩
      obtain ⟨a, b, hapart, ht⟩ := iht ht
      have hleft := hapart.left.2
      have hright := hapart.right.2
      exact ⟨a, b, hapart, ht.sum_right e hop (by omega) (by omega)⟩
    · obtain ⟨a, b, hapart, he⟩ := ihe he
      have hleft := hapart.left.2
      have hright := hapart.right.2
      exact ⟨a, b, hapart, he.sum_left t hop (by omega) (by omega)⟩

/-! ## When the evaluator is right -/

theorem exists_value_ne_exact {s : Phrase Unit .expression} (hconforms : ¬ s.Conforms) :
    ∃ t : Phrase Numeral .expression, t.shape = s ∧
      ∃ v, Grouping.value t.regroup = .ok v ∧ t.exact ≠ .ok v := by
  obtain ⟨a, b, hapart, t, hshape, ⟨v, hexact, ha⟩, w, hvalue, hb⟩ := exists_apart s hconforms
  refine ⟨t, hshape, w, hvalue, fun hsame => hapart.ne ?_⟩
  rw [hexact] at hsame
  rw [← ha, ← hb, Except.ok.inj hsame]

/-- A value that the evaluator returns for an expression is the conventional one exactly when
regrouping does not change the exact value. That is so for all literals exactly when the shape
of the expression conforms. -/
theorem evaluate_eq_exact_iff (e : Phrase Numeral .expression) :
    (∀ text v, LaidOut e.tokens text.toList → evaluate text = .ok v →
      (e.exact = .ok v ↔ e.exact = Grouping.evalBy .ok e.regroup)) ∧
    (e.Conforms ↔ ∀ t : Phrase Numeral .expression, t.shape = e.shape → ∀ text v,
      LaidOut t.tokens text.toList → evaluate text = .ok v → t.exact = .ok v) := by
  refine ⟨?_, ?_, ?_⟩
  · intro text v hlaid hvalue
    rw [Phrase.evaluate_eq_value_regroup hlaid] at hvalue
    rw [Grouping.exact_of_value _ hvalue]
  · intro hconforms t hshape text v hlaid hvalue
    rw [Phrase.evaluate_eq_value_regroup hlaid] at hvalue
    rw [← Phrase.conforms_shape, ← hshape, Phrase.conforms_shape] at hconforms
    exact exact_of_conforms hconforms hvalue
  · intro hexact
    by_contra hconforms
    rw [← Phrase.conforms_shape] at hconforms
    obtain ⟨t, hshape, v, hvalue, hne⟩ := exists_value_ne_exact hconforms
    let text := String.ofList (t.tokens.flatMap Token.chars)
    have hlaid : LaidOut t.tokens text.toList := by
      rw [String.toList_ofList]
      exact laidOut_flatMap_chars t.tokens
    have hevaluate := (Phrase.evaluate_eq_value_regroup hlaid).trans hvalue
    exact hne (hexact t hshape text v hlaid hevaluate)

/-- The phrase `-7 / 2 * -3 * 4 + 1`, in which only a multiplication goes on behind the sign that
multiplies. -/
def signInProduct : Phrase Numeral .expression :=
  let literal (n : Nat) : Phrase Numeral .factor := .literal (.ofNat n)
  let quotient : Phrase Numeral .term :=
    .product (.ofFactor (.sign (literal 7))) .div .div (literal 2)
  let product : Phrase Numeral .term :=
    .product (.product quotient .mul .mul (.sign (literal 3))) .mul .mul (literal 4)
  .sum (.ofTerm product) .add .add (.ofFactor (literal 1))

theorem exact_signInProduct :
    signInProduct.Conforms ∧ LaidOut signInProduct.tokens "-7/2*-3 * 4+1".toList ∧
      evaluate "-7/2*-3 * 4+1" = .ok 37 ∧ signInProduct.exact = .ok 37 := by
  have hconforms : signInProduct.Conforms := by
    simp [signInProduct, Phrase.Conforms, Phrase.captor, Phrase.signed]
  have htokens : tokens "-7/2*-3 * 4+1".toList = signInProduct.tokens := by decide +kernel
  have hlaid : LaidOut signInProduct.tokens "-7/2*-3 * 4+1".toList := htokens ▸ laidOut_tokens _
  have hvalue : evaluate "-7/2*-3 * 4+1" = .ok 37 := by decide +kernel
  have hexact := (evaluate_eq_exact_iff signInProduct).2.1 hconforms
  exact ⟨hconforms, hlaid, hvalue, hexact signInProduct rfl _ _ hlaid hvalue⟩

def dividedBySign : Phrase Numeral .expression :=
  let literal (n : Nat) : Phrase Numeral .factor := .literal (.ofNat n)
  let quotient : Phrase Numeral .term :=
    .product (.ofFactor (literal 8)) .div .div (.sign (literal 2))
  .ofTerm (.product quotient .mul .mul (literal 2))

theorem evaluate_dividedBySign :
    LaidOut dividedBySign.tokens "8/-2*2".toList ∧
      evaluate "8/-2*2" = .ok (-2) ∧ dividedBySign.exact = .ok (-8) := by
  have htokens : tokens "8/-2*2".toList = dividedBySign.tokens := by decide +kernel
  exact ⟨htokens ▸ laidOut_tokens _, by decide +kernel, by decide +kernel⟩

end InfixArithmetic.Grammar
