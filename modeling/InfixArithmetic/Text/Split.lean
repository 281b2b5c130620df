/-!
# Cutting a text at a character

`splitAt` cuts a text at every occurrence of one character. There is always at least one
piece, and no piece holds the character.
-/

namespace InfixArithmetic.Text

def splitAt (mark : Char) : List Char → List (List Char)
  | [] => [[]]
  | c :: rest =>
    if c = mark then
      [] :: splitAt mark rest
    else
      match splitAt mark rest with
      | [] => [[c]]
      | piece :: pieces => (c :: piece) :: pieces

theorem splitAt_ne_nil (mark : Char) (text : List Char) : splitAt mark text ≠ [] := by
  cases text with
  | nil => simp [splitAt]
  | cons c rest =>
    simp only [splitAt]
    split
    · simp
    · split <;> simp

theorem not_mem_of_mem_splitAt {mark : Char} {text piece : List Char}
    (hpiece : piece ∈ splitAt mark text) : mark ∉ piece := by
  induction text generalizing piece with
  | nil =>
    simp only [splitAt, List.mem_singleton] at hpiece
    simp [hpiece]
  | cons c rest ih =>
    simp only [splitAt] at hpiece
    split at hpiece
    · rcases List.mem_cons.1 hpiece with hempty | hrest
      · simp [hempty]
      · exact ih hrest
    · rename_i hmark
      have hne : mark ≠ c := fun heq => hmark heq.symm
      split at hpiece
      · rename_i hnil
        exact absurd hnil (splitAt_ne_nil mark rest)
      · rename_i first others hsplit
        rcases List.mem_cons.1 hpiece with hfirst | hothers
        · subst hfirst
          have hmem : first ∈ splitAt mark rest := by rw [hsplit]; exact List.mem_cons_self
          simp [hne, ih hmem]
        · have hmem : piece ∈ splitAt mark rest := by
            rw [hsplit]
            exact List.mem_cons_of_mem _ hothers
          exact ih hmem

theorem mem_of_mem_splitAt {mark c : Char} {text piece : List Char}
    (hpiece : piece ∈ splitAt mark text) (hc : c ∈ piece) : c ∈ text := by
  induction text generalizing piece with
  | nil =>
    rw [List.mem_singleton.1 hpiece] at hc
    cases hc
  | cons d rest ih =>
    simp only [splitAt] at hpiece
    split at hpiece
    · rcases List.mem_cons.1 hpiece with hempty | hrest
      · rw [hempty] at hc
        cases hc
      · exact List.mem_cons_of_mem _ (ih hrest hc)
    · split at hpiece
      · rename_i hnil
        exact absurd hnil (splitAt_ne_nil mark rest)
      · rename_i first others hsplit
        rcases List.mem_cons.1 hpiece with hfirst | hothers
        · subst hfirst
          rcases List.mem_cons.1 hc with hhead | htail
          · rw [hhead]
            exact List.mem_cons_self
          · have hmem : first ∈ splitAt mark rest := by rw [hsplit]; exact List.mem_cons_self
            exact List.mem_cons_of_mem _ (ih hmem htail)
        · have hmem : piece ∈ splitAt mark rest := by
            rw [hsplit]
            exact List.mem_cons_of_mem _ hothers
          exact List.mem_cons_of_mem _ (ih hmem hc)

theorem splitAt_of_not_mem {mark : Char} {text : List Char} (hmark : mark ∉ text) :
    splitAt mark text = [text] := by
  induction text with
  | nil => rfl
  | cons c rest ih =>
    rw [List.mem_cons, not_or] at hmark
    rw [splitAt, if_neg (Ne.symm hmark.1), ih hmark.2]

end InfixArithmetic.Text
