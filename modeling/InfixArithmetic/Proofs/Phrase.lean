import InfixArithmetic.Proofs.Grouping
/-!
# The conventional grammar

A `Phrase` is read as arithmetic usually is: a sign negates the one factor behind it, and
operators of equal precedence group to the left. Its literals are of any type, so that a
phrase over `Unit` is the bare shape of an expression. Every phrase over numerals has the
tokens of exactly one grouping, its `regroup`, in which signs take in runs of products.
-/

namespace InfixArithmetic.Grammar

open Evaluation

inductive Rank where
  | factor
  | term
  | expression

/-- A derivation tree of the conventional grammar over literals of type `α`. -/
inductive Phrase (α : Type) : Rank → Type
  | literal (a : α) : Phrase α .factor
  | group (e : Phrase α .expression) : Phrase α .factor
  | sign (f : Phrase α .factor) : Phrase α .factor
  | ofFactor (f : Phrase α .factor) : Phrase α .term
  | product (t : Phrase α .term) (op : Operator) (hop : op.IsProduct)
      (f : Phrase α .factor) : Phrase α .term
  | ofTerm (t : Phrase α .term) : Phrase α .expression
  | sum (e : Phrase α .expression) (op : Operator) (hop : op.IsSum)
      (t : Phrase α .term) : Phrase α .expression

namespace Phrase

variable {rank : Rank}

def tokens {rank : Rank} : Phrase Numeral rank → List Token
  | literal n => [.literal n]
  | group e => .opening :: e.tokens ++ [.closing]
  | sign f => .operator .sub :: f.tokens
  | ofFactor f => f.tokens
  | product t op _ f => t.tokens ++ .operator op :: f.tokens
  | ofTerm t => t.tokens
  | sum e op _ t => e.tokens ++ .operator op :: t.tokens

/-- The value over the unbounded integers; only a division by zero has none. -/
def exact {rank : Rank} : Phrase Numeral rank → Except EvalError Int
  | literal n => .ok n.value
  | group e => e.exact
  | sign f => f.exact >>= fun v => .ok (-v)
  | ofFactor f => f.exact
  | product t op _ f => combine .ok op t.exact f.exact
  | ofTerm t => t.exact
  | sum e op _ t => combine .ok op e.exact t.exact

end Phrase

/-! ## Regrouping -/

/-- What stands around the chain that a term ends in: a sign alone, or a sign behind a chain
and its operator. Either takes in all that follows. -/
inductive Frame where
  | sign
  | product (c : Grouping .chain) (op : Operator) (hop : op.IsProduct)

namespace Frame

def tokens : Frame → List Token
  | sign => [.operator .sub]
  | product c op _ => c.tokens ++ [.operator op, .operator .sub]

def enclose (t : Grouping .term) : Frame → Grouping .term
  | sign => .ofNegation (.sign t)
  | product c op hop => .signedProduct c op hop (.sign t)

end Frame

structure SignedPrimary where
  signs : Nat
  primary : Grouping .primary

/-- A chain that may still grow, in its frames with the innermost first. -/
structure OpenTerm where
  frames : List Frame
  chain : Grouping .chain

namespace OpenTerm

def close (t : OpenTerm) : Grouping .term :=
  t.frames.foldl Frame.enclose (.ofChain t.chain)

def ofFactor (f : SignedPrimary) : OpenTerm :=
  ⟨List.replicate f.signs .sign, .single f.primary⟩

/-- One more factor behind an operator. Without signs it joins the chain; with signs the first
of them makes a frame of that chain. -/
def extend (t : OpenTerm) (op : Operator) (hop : op.IsProduct) (f : SignedPrimary) :
    OpenTerm :=
  match f.signs with
  | 0 => ⟨t.frames, .product t.chain op hop f.primary⟩
  | signs + 1 =>
    ⟨List.replicate signs .sign ++ .product t.chain op hop :: t.frames, .single f.primary⟩

end OpenTerm

abbrev Regrouped : Rank → Type
  | .factor => SignedPrimary
  | .term => OpenTerm
  | .expression => Grouping .expression

namespace Phrase

/-- The grouping of the same tokens, in which every sign takes in the rest of its run of
products. -/
def regroup : {rank : Rank} → Phrase Numeral rank → Regrouped rank
  | _, literal n => SignedPrimary.mk 0 (.literal n)
  | _, group e => SignedPrimary.mk 0 (.group e.regroup)
  | _, sign f =>
    let inner : SignedPrimary := f.regroup
    SignedPrimary.mk (inner.signs + 1) inner.primary
  | _, ofFactor f => OpenTerm.ofFactor f.regroup
  | _, product t op hop f => OpenTerm.extend t.regroup op hop f.regroup
  | _, ofTerm t => Grouping.ofTerm (OpenTerm.close t.regroup)
  | _, sum e op hop t => Grouping.sum e.regroup op hop (OpenTerm.close t.regroup)

end Phrase

/-! ## The tokens stay as they are -/

def SignedPrimary.tokens (f : SignedPrimary) : List Token :=
  List.replicate f.signs (.operator .sub) ++ f.primary.tokens

def OpenTerm.tokens (t : OpenTerm) : List Token :=
  t.frames.reverse.flatMap Frame.tokens ++ t.chain.tokens

def Regrouped.tokens : {rank : Rank} → Regrouped rank → List Token
  | .factor, f => SignedPrimary.tokens f
  | .term, t => OpenTerm.tokens t
  | .expression, e => Grouping.tokens e

theorem Frame.tokens_enclose (frame : Frame) (t : Grouping .term) :
    (frame.enclose t).tokens = frame.tokens ++ t.tokens := by
  cases frame with
  | sign => rfl
  | product c op hop => simp [enclose, Frame.tokens, Grouping.tokens]

theorem OpenTerm.tokens_close (t : OpenTerm) : t.close.tokens = t.tokens := by
  have henclosed : ∀ (frames : List Frame) (inner : Grouping .term),
      (frames.foldl Frame.enclose inner).tokens =
        frames.reverse.flatMap Frame.tokens ++ inner.tokens := by
    intro frames
    induction frames with
    | nil => intro inner; rfl
    | cons frame frames ih =>
      intro inner
      rw [List.foldl_cons, ih, Frame.tokens_enclose]
      simp
  exact henclosed t.frames (.ofChain t.chain)

theorem flatMap_tokens_replicate_sign (n : Nat) :
    (List.replicate n Frame.sign).flatMap Frame.tokens = List.replicate n (.operator .sub) := by
  induction n with
  | zero => rfl
  | succ n ih => rw [List.replicate_succ, List.flatMap_cons, ih]; rfl

theorem OpenTerm.tokens_ofFactor (f : SignedPrimary) :
    (OpenTerm.ofFactor f).tokens = f.tokens := by
  simp [ofFactor, OpenTerm.tokens, SignedPrimary.tokens, flatMap_tokens_replicate_sign,
    Grouping.tokens]

theorem OpenTerm.tokens_extend (t : OpenTerm) (op : Operator) (hop : op.IsProduct)
    (f : SignedPrimary) :
    (t.extend op hop f).tokens = t.tokens ++ .operator op :: f.tokens := by
  obtain ⟨signs, p⟩ := f
  cases signs with
  | zero => simp [extend, OpenTerm.tokens, SignedPrimary.tokens, Grouping.tokens]
  | succ signs =>
    simp [extend, OpenTerm.tokens, SignedPrimary.tokens, Grouping.tokens, Frame.tokens,
      flatMap_tokens_replicate_sign, List.replicate_succ]

theorem Phrase.tokens_regroup {rank : Rank} (t : Phrase Numeral rank) :
    Regrouped.tokens t.regroup = t.tokens := by
  induction t with
  | literal n => rfl
  | group e ih => exact congrArg (fun rest => .opening :: rest ++ [.closing]) ih
  | sign f ih => exact congrArg (.operator .sub :: ·) ih
  | ofFactor f ih => exact (OpenTerm.tokens_ofFactor _).trans ih
  | product t op hop f iht ihf =>
    have hextend := OpenTerm.tokens_extend t.regroup op hop f.regroup
    change OpenTerm.tokens t.regroup = _ at iht
    change SignedPrimary.tokens f.regroup = _ at ihf
    rw [iht, ihf] at hextend
    exact hextend
  | ofTerm t ih => exact (OpenTerm.tokens_close _).trans ih
  | sum e op hop t ihe iht =>
    have hclose := (OpenTerm.tokens_close t.regroup).trans iht
    change Grouping.tokens e.regroup = _ at ihe
    change Grouping.tokens e.regroup ++ .operator op :: (OpenTerm.close t.regroup).tokens = _
    rw [ihe, hclose]
    rfl

theorem Phrase.dueAfter_tokens (e : Phrase Numeral .expression) :
    dueAfter true e.tokens = some false := by
  have htokens : Grouping.tokens e.regroup = e.tokens := e.tokens_regroup
  rw [← htokens]
  exact Grouping.dueAfter_tokens e.regroup

theorem Phrase.evaluate_eq_value_regroup {e : Phrase Numeral .expression} {text : String}
    (hlaid : LaidOut e.tokens text.toList) : evaluate text = Grouping.value e.regroup := by
  have htokens : Grouping.tokens e.regroup = e.tokens := e.tokens_regroup
  rw [evaluate_eq_read, tokens_eq_of_laidOut hlaid (separated_of_dueAfter e.dueAfter_tokens),
    ← htokens]
  exact Grouping.read_tokens e.regroup

end InfixArithmetic.Grammar
