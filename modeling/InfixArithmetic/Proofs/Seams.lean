import InfixArithmetic.Proofs.Tokens
/-!
# Tokens of joined texts

A text is made of blanks, runs of digits and single characters, and facts about its tokens are
proved along these pieces (`induction_on_pieces`). Only a run of digits can reach across the place
where two texts are joined. Where none does, the tokens of the whole are those of the two parts:
`tokens_append`.
-/

namespace InfixArithmetic.Evaluation

open Text (isBlank)

def endsInDigit (text : List Char) : Bool :=
  text.getLast?.any Char.isDigit

/-- No run of digits reaches from one text into the other. -/
def Seam (left right : List Char) : Prop :=
  endsInDigit left = false ∨ startsWithDigit right = false

theorem endsInDigit_append (front : List Char) {text : List Char} (hne : text ≠ []) :
    endsInDigit (front ++ text) = endsInDigit text := by
  rw [endsInDigit, endsInDigit, List.getLast?_append_of_ne_nil front hne]

theorem startsWithDigit_append {text : List Char} (hne : text ≠ []) (more : List Char) :
    startsWithDigit (text ++ more) = startsWithDigit text := by
  rw [startsWithDigit, startsWithDigit, List.head?_append_of_ne_nil text hne]

theorem startsWithDigit_of_append {text more : List Char}
    (hhead : startsWithDigit (text ++ more) = false) : startsWithDigit text = false := by
  by_cases hne : text = []
  · rw [hne]
    rfl
  · rwa [startsWithDigit_append hne] at hhead

theorem startsWithDigit_dropWhile (text : List Char) :
    startsWithDigit (text.dropWhile Char.isDigit) = false := by
  have hhead := List.head?_dropWhile_not Char.isDigit text
  unfold startsWithDigit
  cases hdrop : (text.dropWhile Char.isDigit).head? with
  | none => rfl
  | some c =>
    rw [hdrop] at hhead
    simpa using hhead

theorem Numeral.startsWithDigit_append (n : Numeral) (text : List Char) :
    startsWithDigit (n.digits ++ text) = true := by
  rw [Evaluation.startsWithDigit_append n.ne_nil, startsWithDigit,
    List.head?_eq_some_head n.ne_nil]
  exact n.isDigit_of_mem _ (List.head_mem n.ne_nil)

theorem Numeral.endsInDigit_digits (n : Numeral) : endsInDigit n.digits = true := by
  rw [endsInDigit, List.getLast?_eq_some_getLast n.ne_nil]
  exact n.isDigit_of_mem _ (List.getLast_mem n.ne_nil)

theorem Seam.of_suffix {left part right : List Char} (hseam : Seam left right)
    (hpart : part <:+ left) : Seam part right := by
  obtain ⟨front, rfl⟩ := hpart
  by_cases hne : part = []
  · exact .inl (by rw [hne]; rfl)
  · rwa [Seam, endsInDigit_append front hne] at hseam

theorem Seam.of_prefix {left right part : List Char} (hseam : Seam left right)
    (hpart : part <+: right) : Seam left part := by
  obtain ⟨more, rfl⟩ := hpart
  exact hseam.imp_right startsWithDigit_of_append

theorem Seam.append_left {left right : List Char} (hseam : Seam left right) (hne : left ≠ [])
    (front : List Char) : Seam (front ++ left) right := by
  rwa [Seam, endsInDigit_append front hne]

theorem digits_ofRun_append_dropWhile (c : Char) (rest : List Char) (hdigit : c.isDigit = true) :
    (Numeral.ofRun c rest hdigit).digits ++ rest.dropWhile Char.isDigit = c :: rest := by
  simp [Numeral.ofRun, List.takeWhile_append_dropWhile]

/-- Induction over a text as it is cut into tokens. -/
@[elab_as_elim]
theorem induction_on_pieces {motive : List Char → Prop} (text : List Char) (nil : motive [])
    (blank : ∀ c rest, isBlank c = true → motive rest → motive (c :: rest))
    (run : ∀ (n : Numeral) rest, startsWithDigit rest = false → motive rest →
      motive (n.digits ++ rest))
    (other : ∀ c rest, isBlank c = false → c.isDigit = false → motive rest →
      motive (c :: rest)) : motive text := by
  induction text using tokens.induct with
  | case1 => exact nil
  | case2 c rest hblank ih => exact blank c rest hblank ih
  | case3 c rest _ hdigit ih =>
    rw [← digits_ofRun_append_dropWhile c rest hdigit]
    exact run _ _ (startsWithDigit_dropWhile rest) ih
  | case4 c rest hblank hdigit ih =>
    exact other c rest (by simpa using hblank) (by simpa using hdigit) ih

theorem tokens_digits (n : Numeral) : tokens n.digits = [.literal n] := by
  have hrun : tokens (n.digits ++ []) = _ := tokens_numeral_append n rfl
  rwa [List.append_nil, tokens] at hrun

theorem tokens_append {left right : List Char} (hseam : Seam left right) :
    tokens (left ++ right) = tokens left ++ tokens right := by
  induction left using induction_on_pieces with
  | nil =>
    rw [tokens]
    rfl
  | blank c rest hblank ih =>
    rw [List.cons_append, tokens_cons_of_isBlank hblank, tokens_cons_of_isBlank hblank]
    exact ih (hseam.of_suffix (List.suffix_cons c rest))
  | run n rest hrest ih =>
    have hhead : startsWithDigit (rest ++ right) = false := by
      by_cases hend : rest = []
      · rw [hend, List.append_nil] at hseam
        rw [hend]
        exact hseam.resolve_left (by simp [n.endsInDigit_digits])
      · rwa [startsWithDigit_append hend]
    rw [List.append_assoc, tokens_numeral_append n hhead, tokens_numeral_append n hrest,
      ih (hseam.of_suffix (List.suffix_append n.digits rest))]
    rfl
  | other c rest hblank hdigit ih =>
    rw [List.cons_append, tokens_cons_of_other hblank hdigit, tokens_cons_of_other hblank hdigit,
      ih (hseam.of_suffix (List.suffix_cons c rest))]
    rfl

theorem tokens_append_cons {c : Char} (front back : List Char) (hblank : isBlank c = false)
    (hdigit : c.isDigit = false) :
    tokens (front ++ c :: back) = tokens front ++ .ofChar c :: tokens back := by
  have hseam : Seam front (c :: back) := .inr hdigit
  rw [tokens_append hseam, tokens_cons_of_other hblank hdigit]

end InfixArithmetic.Evaluation
