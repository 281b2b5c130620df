import InfixArithmetic.Proofs.Phrase
import Mathlib.Tactic.Ring
/-!
# Where the scope of a sign does not matter

The evaluator lets a sign take in the run of products behind it; conventionally it negates one
factor. The two readings of a term part only behind a sign that follows an operator, its
`captor`. If that operator is a multiplication and only multiplications go on, or if nothing
goes on, the sign may be moved out of the run and the readings have the same value:
`exact_of_conforms`.
-/

namespace InfixArithmetic.Grammar

open Evaluation

namespace Phrase

variable {α : Type}

def signed {rank : Rank} : Phrase α rank → Bool
  | sign _ => true
  | _ => false

/-- The operator in front of the first signed factor that has one. -/
def captor {rank : Rank} : Phrase α rank → Option Operator
  | product t op _ f => t.captor.or (if f.signed then some op else none)
  | _ => none

theorem captor_product_unsigned (t : Phrase α .term) {op : Operator} (hop : op.IsProduct)
    {f : Phrase α .factor} (hsigned : f.signed = false) :
    (product t op hop f).captor = t.captor := by
  rw [captor, hsigned, if_neg Bool.false_ne_true, Option.or_none]

theorem captor_product_signed (t : Phrase α .term) {op : Operator} (hop : op.IsProduct)
    {f : Phrase α .factor} (hsigned : f.signed = true) :
    (product t op hop f).captor = t.captor.or (some op) := by
  rw [captor, hsigned, if_pos rfl]

/-- Behind a sign that multiplies only multiplications go on, and nothing goes on behind a
sign that divides. -/
def Conforms {rank : Rank} : Phrase α rank → Prop
  | literal _ => True
  | group e => e.Conforms
  | sign f => f.Conforms
  | ofFactor f => f.Conforms
  | product t op _ f =>
    t.Conforms ∧ f.Conforms ∧ ∀ o, t.captor = some o → o = .mul ∧ op = .mul
  | ofTerm t => t.Conforms
  | sum e _ _ t => e.Conforms ∧ t.Conforms

end Phrase

/-! ## The values of frames -/

theorem combine_eq_ok_iff {check : Int → Except EvalError Int} {op : Operator}
    {x y : Except EvalError Int} {v : Int} :
    combine check op x y = .ok v ↔
      ∃ a b w, x = .ok a ∧ y = .ok b ∧ op.meaning a b = .ok w ∧ check w = .ok v := by
  unfold combine
  constructor
  · intro hcombine
    obtain ⟨a, ha, hcombine⟩ := bind_eq_ok_iff.1 hcombine
    obtain ⟨b, hb, hcombine⟩ := bind_eq_ok_iff.1 hcombine
    obtain ⟨w, hw, hv⟩ := bind_eq_ok_iff.1 hcombine
    exact ⟨a, b, w, ha, hb, hw, hv⟩
  · rintro ⟨a, b, w, rfl, rfl, hw, hv⟩
    change op.meaning a b >>= check = .ok v
    rw [hw]
    exact hv

theorem combine_ok (op : Operator) (a b : Int) :
    combine .ok op (.ok a) (.ok b) = op.meaning a b :=
  bind_pure (op.meaning a b)

theorem Grouping.exact_of_value {part : Part} (t : Grouping part) {v : Int}
    (hvalue : t.value = .ok v) : t.evalBy .ok = .ok v := by
  have hcombine : ∀ {op : Operator} {x y x' y' : Except EvalError Int} {v : Int},
      (∀ a, x = .ok a → x' = .ok a) → (∀ b, y = .ok b → y' = .ok b) →
      combine checked op x y = .ok v → combine .ok op x' y' = .ok v := by
    intro op x y x' y' v hx hy h
    obtain ⟨a, b, w, ha, hb, hw, hv⟩ := combine_eq_ok_iff.1 h
    obtain ⟨rfl, -⟩ := checked_eq_ok_iff.1 hv
    exact combine_eq_ok_iff.2 ⟨a, b, w, hx a ha, hy b hb, hw, rfl⟩
  unfold value at hvalue
  induction t generalizing v with
  | literal n =>
    obtain ⟨rfl, -⟩ := checked_eq_ok_iff.1 hvalue
    rfl
  | group e ih => exact ih hvalue
  | single p ih => exact ih hvalue
  | product c op hop p ihc ihp => exact hcombine (fun _ => ihc) (fun _ => ihp) hvalue
  | sign t ih => exact hcombine (fun _ => id) (fun _ => ih) hvalue
  | ofNegation n ih => exact ih hvalue
  | ofChain c ih => exact ih hvalue
  | signedProduct c op hop n ihc ihn => exact hcombine (fun _ => ihc) (fun _ => ihn) hvalue
  | ofTerm t ih => exact ih hvalue
  | sum e op hop t ihe iht => exact hcombine (fun _ => ihe) (fun _ => iht) hvalue

def Frame.evalBy (check : Int → Except EvalError Int) (y : Except EvalError Int) :
    Frame → Except EvalError Int
  | sign => combine check .sub (.ok 0) y
  | product c op _ => combine check op (c.evalBy check) (combine check .sub (.ok 0) y)

def surround (check : Int → Except EvalError Int) (frames : List Frame)
    (y : Except EvalError Int) : Except EvalError Int :=
  frames.foldl (Frame.evalBy check) y

theorem OpenTerm.evalBy_close (check : Int → Except EvalError Int) (t : OpenTerm) :
    t.close.evalBy check = surround check t.frames (t.chain.evalBy check) := by
  have henclosed : ∀ (frames : List Frame) (inner : Grouping .term),
      (frames.foldl Frame.enclose inner).evalBy check =
        surround check frames (inner.evalBy check) := by
    intro frames
    induction frames with
    | nil => intro inner; rfl
    | cons frame frames ih =>
      intro inner
      rw [List.foldl_cons, ih]
      cases frame with
      | sign => rfl
      | product c op hop => rfl
  exact henclosed t.frames (.ofChain t.chain)

theorem surround_append (check : Int → Except EvalError Int) (inner outer : List Frame)
    (y : Except EvalError Int) :
    surround check (inner ++ outer) y = surround check outer (surround check inner y) :=
  List.foldl_append

theorem surround_cons (check : Int → Except EvalError Int) (frame : Frame) (outer : List Frame)
    (y : Except EvalError Int) :
    surround check (frame :: outer) y = surround check outer (frame.evalBy check y) := rfl

theorem combine_zero_sub (y : Int) : combine .ok .sub (.ok 0) (.ok y) = .ok (-y) := by
  rw [combine_ok, Operator.meaning, Int.zero_sub]

theorem surround_replicate_sign (n : Nat) (y : Int) :
    surround .ok (List.replicate n .sign) (.ok y) = .ok ((-1) ^ n * y) := by
  induction n generalizing y with
  | zero => rw [pow_zero, one_mul]; rfl
  | succ n ih =>
    rw [List.replicate_succ, surround_cons, Frame.evalBy, combine_zero_sub, ih]
    congr 1
    ring

theorem ok_of_surround {frames : List Frame} {y : Except EvalError Int} {v : Int}
    (hsurround : surround .ok frames y = .ok v) : ∃ a, y = .ok a := by
  induction frames generalizing y with
  | nil => exact ⟨v, hsurround⟩
  | cons frame frames ih =>
    rw [surround_cons] at hsurround
    obtain ⟨a, ha⟩ := ih hsurround
    cases frame with
    | sign =>
      obtain ⟨-, b, -, -, hb, -⟩ := combine_eq_ok_iff.1 ha
      exact ⟨b, hb⟩
    | product c op hop =>
      obtain ⟨-, b, -, -, hb, -⟩ := combine_eq_ok_iff.1 ha
      obtain ⟨-, b, -, -, hb, -⟩ := combine_eq_ok_iff.1 hb
      exact ⟨b, hb⟩

/-! ## The two readings of a conforming phrase -/

theorem meaning_unit_mul {op : Operator} (hop : op.IsProduct) {m a b w : Int}
    (hunit : m = 1 ∨ m = -1) (hw : op.meaning a b = .ok w) :
    op.meaning (m * a) b = .ok (m * w) := by
  rcases hunit with rfl | rfl
  · rwa [one_mul, one_mul]
  rw [neg_one_mul, neg_one_mul]
  cases hop with
  | mul =>
    cases hw
    exact congrArg Except.ok (Int.neg_mul a b)
  | div =>
    rw [Operator.meaning] at hw ⊢
    split at hw
    case isTrue => cases hw
    case isFalse hzero =>
      cases hw
      rw [if_neg hzero, Int.neg_tdiv]

/-- The frames of a term multiply by `m`, and its exact value is `m` times that of its chain. -/
structure Scales (t : Phrase Numeral .term) (m : Int) : Prop where
  frames : ∀ y, surround .ok (OpenTerm.frames t.regroup) (.ok y) = .ok (m * y)
  exact : ∀ x, (OpenTerm.chain t.regroup).evalBy .ok = .ok x → t.exact = .ok (m * x)
  unit : t.captor = none → m = 1 ∨ m = -1

/-- If the regrouped phrase has an exact value, the phrase has the same. For a term the frames
have to multiply as well, unless a sign in it divides. -/
def Faithful : {rank : Rank} → Phrase Numeral rank → Prop
  | .factor, f =>
    ∀ v, (SignedPrimary.primary f.regroup).evalBy .ok = .ok v →
      f.exact = .ok ((-1) ^ SignedPrimary.signs f.regroup * v)
  | .term, t =>
    (∀ x v, (OpenTerm.chain t.regroup).evalBy .ok = .ok x →
      surround .ok (OpenTerm.frames t.regroup) (.ok x) = .ok v → t.exact = .ok v) ∧
    (t.captor ≠ some .div →
      ∀ y v, surround .ok (OpenTerm.frames t.regroup) (.ok y) = .ok v → ∃ m, Scales t m)
  | .expression, e => ∀ v, Grouping.evalBy .ok e.regroup = .ok v → e.exact = .ok v

theorem faithful_of_scales {t : Phrase Numeral .term}
    (hscales : ∀ y v, surround .ok (OpenTerm.frames t.regroup) (.ok y) = .ok v →
      ∃ m, Scales t m) : Faithful t := by
  refine ⟨?_, fun _ => hscales⟩
  intro x v hchain hsurround
  obtain ⟨m, hm⟩ := hscales x v hsurround
  rw [hm.exact x hchain, ← hm.frames x, hsurround]

theorem exact_of_close {t : Phrase Numeral .term} (ht : Faithful t) {v : Int}
    (hclose : (OpenTerm.close t.regroup).evalBy .ok = .ok v) : t.exact = .ok v := by
  rw [OpenTerm.evalBy_close] at hclose
  obtain ⟨x, hx⟩ := ok_of_surround hclose
  rw [hx] at hclose
  exact ht.1 x v hx hclose

theorem faithful_ofFactor {f : Phrase Numeral .factor} (hf : Faithful f) :
    Faithful (.ofFactor f) :=
  faithful_of_scales fun _ _ _ =>
    ⟨(-1) ^ SignedPrimary.signs f.regroup,
      { frames := surround_replicate_sign _
        exact := hf
        unit := fun _ => neg_one_pow_eq_or Int _ }⟩

theorem surround_signedFactor (n : Nat) (c : Grouping .chain) (op : Operator)
    (hop : op.IsProduct) (outer : List Frame) (y : Int) :
    surround .ok (List.replicate n .sign ++ .product c op hop :: outer) (.ok y) =
      surround .ok outer (combine .ok op (c.evalBy .ok) (.ok ((-1) ^ (n + 1) * y))) := by
  have hsign : -((-1) ^ n * y) = (-1) ^ (n + 1) * y := by ring
  rw [surround_append, surround_replicate_sign, surround_cons, Frame.evalBy, combine_zero_sub,
    hsign]

theorem Phrase.regroup_product_unsigned (t : Phrase Numeral .term) {op : Operator}
    (hop : op.IsProduct) {f : Phrase Numeral .factor} (hsigned : f.signed = false) :
    SignedPrimary.signs f.regroup = 0 ∧
      (Phrase.product t op hop f).regroup =
        OpenTerm.mk (OpenTerm.frames t.regroup)
          (.product (OpenTerm.chain t.regroup) op hop (SignedPrimary.primary f.regroup)) := by
  cases f with
  | literal n => exact ⟨rfl, rfl⟩
  | group e => exact ⟨rfl, rfl⟩
  | sign f => cases hsigned

theorem Phrase.regroup_product_signed (t : Phrase Numeral .term) {op : Operator}
    (hop : op.IsProduct) {f : Phrase Numeral .factor} (hsigned : f.signed = true) :
    ∃ n, SignedPrimary.signs f.regroup = n + 1 ∧
      (Phrase.product t op hop f).regroup =
        OpenTerm.mk (List.replicate n .sign ++
            .product (OpenTerm.chain t.regroup) op hop :: OpenTerm.frames t.regroup)
          (.single (SignedPrimary.primary f.regroup)) := by
  cases f with
  | literal n => cases hsigned
  | group e => cases hsigned
  | sign f => exact ⟨_, rfl, rfl⟩

theorem faithful_product_unsigned {t : Phrase Numeral .term} {op : Operator}
    {hop : op.IsProduct} {f : Phrase Numeral .factor} (ht : Faithful t) (hf : Faithful f)
    (hcaptor : ∀ o, t.captor = some o → o = .mul ∧ op = .mul) (hsigned : f.signed = false) :
    Faithful (.product t op hop f) := by
  obtain ⟨hsigns, hregroup⟩ := Phrase.regroup_product_unsigned t hop hsigned
  have hsame := t.captor_product_unsigned hop hsigned
  have hdiv : t.captor ≠ some .div := fun h => absurd (hcaptor _ h).1 (by decide)
  refine faithful_of_scales fun y v hsurround => ?_
  rw [hregroup] at hsurround
  obtain ⟨m, hm⟩ := ht.2 hdiv y v hsurround
  refine ⟨m, ?_, ?_, fun hnone => hm.unit (hsame ▸ hnone)⟩
  · rw [hregroup]
    exact hm.frames
  · intro x hx
    rw [hregroup] at hx
    obtain ⟨a, b, w, ha, hb, hw, hwx⟩ := combine_eq_ok_iff.1 hx
    cases hwx
    have hfactor := hf b hb
    rw [hsigns, pow_zero, one_mul] at hfactor
    rw [Phrase.exact, hm.exact a ha, hfactor, combine_ok]
    cases hnone : t.captor with
    | none => exact meaning_unit_mul hop (hm.unit hnone) hw
    | some o =>
      obtain ⟨-, rfl⟩ := hcaptor o hnone
      cases hw
      exact congrArg Except.ok (mul_assoc m a b)

theorem scales_of_surround_signed {t : Phrase Numeral .term} {op : Operator}
    {hop : op.IsProduct} {n : Nat} {y v : Int} (ht : Faithful t)
    (hdiv : t.captor ≠ some .div)
    (hsurround : surround .ok (List.replicate n .sign ++
      .product (OpenTerm.chain t.regroup) op hop :: OpenTerm.frames t.regroup) (.ok y) = .ok v) :
    ∃ x w m, (OpenTerm.chain t.regroup).evalBy .ok = .ok x ∧
      op.meaning x ((-1) ^ (n + 1) * y) = .ok w ∧ Scales t m ∧ v = m * w := by
  rw [surround_signedFactor] at hsurround
  obtain ⟨w, hw⟩ := ok_of_surround hsurround
  rw [hw] at hsurround
  obtain ⟨m, hm⟩ := ht.2 hdiv w v hsurround
  obtain ⟨x, q, u, hx, hq, hu, huw⟩ := combine_eq_ok_iff.1 hw
  cases hq
  cases huw
  rw [hm.frames] at hsurround
  exact ⟨x, w, m, hx, hu, hm, (Except.ok.inj hsurround).symm⟩

theorem exact_of_signed {f : Phrase Numeral .factor} {n : Nat} {p : Int} (hf : Faithful f)
    (hsigns : SignedPrimary.signs f.regroup = n + 1)
    (hp : (SignedPrimary.primary f.regroup).evalBy .ok = .ok p) :
    f.exact = .ok ((-1) ^ (n + 1) * p) := by
  rw [hf p hp, hsigns]

theorem faithful_product_signed_mul {t : Phrase Numeral .term}
    {hop : Operator.mul.IsProduct} {f : Phrase Numeral .factor} (ht : Faithful t)
    (hf : Faithful f) (hdiv : t.captor ≠ some .div) (hsigned : f.signed = true) :
    Faithful (.product t .mul hop f) := by
  obtain ⟨n, hsigns, hregroup⟩ := Phrase.regroup_product_signed t hop hsigned
  refine faithful_of_scales fun y v hsurround => ?_
  rw [hregroup] at hsurround
  obtain ⟨x, w, m, hx, -, hm, -⟩ := scales_of_surround_signed ht hdiv hsurround
  refine ⟨m * x * (-1) ^ (n + 1), fun y => ?_, fun p hp => ?_, fun hnone => ?_⟩
  · rw [hregroup, surround_signedFactor, hx, combine_ok, Operator.meaning, hm.frames]
    congr 1
    ring
  · rw [hregroup] at hp
    rw [Phrase.exact, hm.exact x hx, exact_of_signed hf hsigns hp, combine_ok, Operator.meaning]
    congr 1
    ring
  · rw [t.captor_product_signed hop hsigned] at hnone
    simp at hnone

theorem faithful_product_signed_div {t : Phrase Numeral .term}
    {hop : Operator.div.IsProduct} {f : Phrase Numeral .factor} (ht : Faithful t)
    (hf : Faithful f) (hnone : t.captor = none) (hsigned : f.signed = true) :
    Faithful (.product t .div hop f) := by
  obtain ⟨n, hsigns, hregroup⟩ := Phrase.regroup_product_signed t hop hsigned
  have hdiv : t.captor ≠ some .div := by simp [hnone]
  refine ⟨fun p v hp hsurround => ?_, fun hother => ?_⟩
  · rw [hregroup] at hp hsurround
    obtain ⟨x, w, m, hx, hw, hm, rfl⟩ := scales_of_surround_signed ht hdiv hsurround
    rw [Phrase.exact, hm.exact x hx, exact_of_signed hf hsigns hp, combine_ok]
    exact meaning_unit_mul hop (hm.unit hnone) hw
  · rw [t.captor_product_signed hop hsigned, hnone] at hother
    exact absurd rfl hother

theorem faithful_product_signed {t : Phrase Numeral .term} {op : Operator}
    {hop : op.IsProduct} {f : Phrase Numeral .factor} (ht : Faithful t) (hf : Faithful f)
    (hcaptor : ∀ o, t.captor = some o → o = .mul ∧ op = .mul) (hsigned : f.signed = true) :
    Faithful (.product t op hop f) := by
  cases hop with
  | mul =>
    have hdiv : t.captor ≠ some .div := fun h => absurd (hcaptor _ h).1 (by decide)
    exact faithful_product_signed_mul ht hf hdiv hsigned
  | div =>
    have hnone : t.captor = none := by
      cases hother : t.captor with
      | none => rfl
      | some o => cases (hcaptor o hother).2
    exact faithful_product_signed_div ht hf hnone hsigned

theorem faithful_of_conforms {rank : Rank} (t : Phrase Numeral rank) (hconforms : t.Conforms) :
    Faithful t := by
  induction t with
  | literal n =>
    intro v hv
    cases hv
    exact congrArg Except.ok (one_mul (n.value : Int)).symm
  | group e ih =>
    intro v hv
    have hgroup := ih hconforms v hv
    rw [Phrase.exact, hgroup]
    exact congrArg Except.ok (one_mul v).symm
  | sign f ih =>
    intro v hv
    have hfactor := ih hconforms v hv
    change f.exact >>= _ = .ok ((-1) ^ (SignedPrimary.signs f.regroup + 1) * v)
    rw [hfactor]
    change Except.ok (-_) = _
    congr 1
    ring
  | ofFactor f ih => exact faithful_ofFactor (ih hconforms)
  | product t op hop f iht ihf =>
    obtain ⟨ht, hf, hcaptor⟩ := hconforms
    cases hsigned : f.signed with
    | false => exact faithful_product_unsigned (iht ht) (ihf hf) hcaptor hsigned
    | true => exact faithful_product_signed (iht ht) (ihf hf) hcaptor hsigned
  | ofTerm t ih =>
    intro v hv
    exact exact_of_close (ih hconforms) hv
  | sum e op hop t ihe iht =>
    intro v hv
    obtain ⟨a, b, w, ha, hb, hw, hwv⟩ := combine_eq_ok_iff.1 hv
    rw [Phrase.exact, ihe hconforms.1 a ha, exact_of_close (iht hconforms.2) hb, combine_ok, hw]
    exact hwv

theorem exact_of_conforms {e : Phrase Numeral .expression} (hconforms : e.Conforms) {v : Int}
    (hvalue : Grouping.value e.regroup = .ok v) : e.exact = .ok v :=
  faithful_of_conforms e hconforms v (Grouping.exact_of_value _ hvalue)

end InfixArithmetic.Grammar
