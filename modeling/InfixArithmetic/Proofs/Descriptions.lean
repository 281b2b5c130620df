import InfixArithmetic.Proofs.ResultLines
/-!
# Lines that tell outcomes apart

An expression may hold anything, the separators of a line among it. Still the line of an outcome is
cut in only one way: what stands behind the last equals sign, or behind the last arrowhead that does
not end the line, is known to be free of further ones. So a line describes a single expression, and
whether it has failed: `describe_identifies`.
-/

namespace InfixArithmetic

open Evaluation Text

namespace Text

variable {α : Type} {mark : α} {front front' back back' : List α}

theorem front_eq_of_last (hsame : front ++ mark :: back = front' ++ mark :: back')
    (hback : mark ∉ back) (hback' : mark ∉ back') : front = front' := by
  rcases List.append_eq_append_iff.1 hsame with ⟨gap, rfl, hgap⟩ | ⟨gap, rfl, hgap⟩
  · cases gap with
    | nil => exact (List.append_nil front).symm
    | cons first gap =>
      obtain ⟨-, rfl⟩ := List.cons.inj hgap
      exact absurd (List.mem_append_right gap List.mem_cons_self) hback
  · cases gap with
    | nil => exact List.append_nil front'
    | cons first gap =>
      obtain ⟨-, rfl⟩ := List.cons.inj hgap
      exact absurd (List.mem_append_right gap List.mem_cons_self) hback'

end Text

namespace Batch

variable {expression first second : String} {v w : Int} {e f : EvalError}

/-! ## Lines of values -/

theorem equalsSign_not_mem_ofInt (v : Int) : '=' ∉ ' ' :: (Decimal.ofInt v).toList := by
  intro hmem
  rcases List.mem_cons.1 hmem with hspace | hdigits
  · exact absurd hspace (by decide)
  · exact absurd (isDigit_or_minus_of_mem_ofInt hdigits) (by decide)

theorem rowOf_cut_at_equalsSign (hvalue : evaluate expression = .ok v) :
    rowOf expression = expression.toList ++ [' '] ++ '=' :: ' ' :: (Decimal.ofInt v).toList := by
  rw [rowOf_of_ok hvalue, List.append_assoc, List.append_assoc]
  rfl

theorem eq_of_rowOf_ok (hfirst : evaluate first = .ok v) (hsecond : evaluate second = .ok w)
    (hrow : rowOf first = rowOf second) : first = second := by
  rw [rowOf_cut_at_equalsSign hfirst, rowOf_cut_at_equalsSign hsecond] at hrow
  have hfront := front_eq_of_last hrow (equalsSign_not_mem_ofInt v) (equalsSign_not_mem_ofInt w)
  exact String.toList_inj.1 (List.append_cancel_right hfront)

/-! ## Lines of failures -/

/-- A message may end in an arrowhead that it complains about, and holds no other one. -/
theorem arrowhead_of_message (herror : evaluate expression = .error e) :
    e.message.toList ≠ [] ∧ '>' ∉ e.message.toList.dropLast := by
  have hplain : ∀ message ∈ plainMessages,
      message.toList ≠ [] ∧ '>' ∉ message.toList.dropLast := by decide
  rcases message_of_evaluate herror with hmem | ⟨c, -, hmessage⟩
  · exact hplain _ hmem
  · rw [hmessage, String.toList_append, String.toList_singleton, List.dropLast_concat]
    exact ⟨List.append_ne_nil_of_right_ne_nil _ (List.cons_ne_nil c []), by decide⟩

theorem arrowhead_not_mem_behind_mark (herror : evaluate expression = .error e) :
    '>' ∉ " ERROR: ".toList ++ e.message.toList.dropLast := by
  intro hmem
  rcases List.mem_append.1 hmem with hmark | hmessage
  · exact absurd hmark (by decide)
  · exact (arrowhead_of_message herror).2 hmessage

theorem dropLast_rowOf_cut_at_arrowhead (herror : evaluate expression = .error e) :
    (rowOf expression).dropLast =
      expression.toList ++ " -".toList ++
        '>' :: (" ERROR: ".toList ++ e.message.toList.dropLast) := by
  have hmark : failureMark = " -".toList ++ '>' :: " ERROR: ".toList := by decide
  rw [rowOf_of_error herror, List.dropLast_append_of_ne_nil (arrowhead_of_message herror).1, hmark]
  simp only [List.append_assoc, List.cons_append]

theorem eq_of_rowOf_error (hfirst : evaluate first = .error e)
    (hsecond : evaluate second = .error f) (hrow : rowOf first = rowOf second) :
    first = second := by
  -- the last character goes, since it may be an arrowhead that a message complains about
  have hdropped := congrArg List.dropLast hrow
  rw [dropLast_rowOf_cut_at_arrowhead hfirst, dropLast_rowOf_cut_at_arrowhead hsecond] at hdropped
  have hfront := front_eq_of_last hdropped (arrowhead_not_mem_behind_mark hfirst)
    (arrowhead_not_mem_behind_mark hsecond)
  exact String.toList_inj.1 (List.append_cancel_right hfront)

/-! ## All lines -/

theorem rowOf_ne_of_ok_of_error (hfirst : evaluate first = .ok v)
    (hsecond : evaluate second = .error e) : rowOf first ≠ rowOf second := by
  intro hrow
  apply not_marked_of_ok hfirst
  rw [hrow]
  exact marked_of_error hsecond

theorem rowOf_inj : rowOf first = rowOf second ↔ first = second := by
  refine ⟨fun hrow => ?_, congrArg rowOf⟩
  cases hfirst : evaluate first with
  | ok v =>
    cases hsecond : evaluate second with
    | ok w => exact eq_of_rowOf_ok hfirst hsecond hrow
    | error f => exact absurd hrow (rowOf_ne_of_ok_of_error hfirst hsecond)
  | error e =>
    cases hsecond : evaluate second with
    | ok w => exact absurd hrow.symm (rowOf_ne_of_ok_of_error hsecond hfirst)
    | error f => exact eq_of_rowOf_error hfirst hsecond hrow

end Batch

/-- The line of an outcome tells which expression it is the outcome of, and so the outcome itself;
in particular no line of an expression with a value is the line of one that has failed. -/
theorem describe_identifies (first second : String) :
    ∃ o p, calculate first = .ok o ∧ calculate second = .ok p ∧
      (o.describe = p.describe ↔ first = second) ∧ (o.describe = p.describe → o = p) ∧
      (o.ok = true → p.ok = false → o.describe ≠ p.describe) := by
  have hexpression :
      (Outcome.ofExpression first).describe = (Outcome.ofExpression second).describe ↔
        first = second := by
    rw [← String.toList_inj]
    exact Batch.rowOf_inj
  have houtcome : (Outcome.ofExpression first).describe = (Outcome.ofExpression second).describe →
      Outcome.ofExpression first = Outcome.ofExpression second :=
    fun hsame => congrArg Outcome.ofExpression (hexpression.1 hsame)
  refine ⟨_, _, calculate_eq first, calculate_eq second, hexpression, houtcome, ?_⟩
  intro hok hfailed hsame
  rw [houtcome hsame, hfailed] at hok
  cases hok

theorem describe_identifies_lookalike :
    ∃ o p, calculate "6/2" = .ok o ∧ calculate "6/2 = 3 -> ERROR: >" = .ok p ∧
      o.describe = "6/2 = 3" ∧ p.describe = "6/2 = 3 -> ERROR: > -> ERROR: Invalid character: =" ∧
      o.ok = true ∧ p.ok = false ∧ o.describe ≠ p.describe := by
  obtain ⟨o, p, hfirst, hsecond, -, -, hapart⟩ :=
    describe_identifies "6/2" "6/2 = 3 -> ERROR: >"
  have ho : o = ⟨"6/2", .ok 3⟩ :=
    Except.ok.inj (hfirst.symm.trans (calculate_of_ok (by decide +kernel)))
  have hp : p = ⟨"6/2 = 3 -> ERROR: >", .error (EvalError.invalidCharacter '=').message⟩ :=
    Except.ok.inj (hsecond.symm.trans (calculate_of_error (by decide +kernel)))
  subst ho hp
  exact ⟨_, _, hfirst, hsecond, by decide +kernel, by decide +kernel, rfl, rfl, hapart rfl rfl⟩

end InfixArithmetic
