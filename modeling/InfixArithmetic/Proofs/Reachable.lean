import InfixArithmetic.Proofs.Reading
import Mathlib.Logic.Relation
/-!
# Contexts that an evaluation reaches

`Reaches` holds the contexts of an evaluation between two transitions. Each of them is what the
reading of the consumed part of the text comes to, and no literal is ever left half read:
`exists_follows_of_reaches`.
-/

namespace InfixArithmetic.Evaluation

def Source.passed (s : Source) : List Char :=
  s.text.take s.cursor

theorem Source.passed_advance (s : Source) (n : Nat) :
    (s.advance n).passed = s.passed ++ s.rest.take n := by
  simp only [passed, text_advance, cursor_advance, s.rest_eq_drop]
  exact List.take_add

def Steps (c d : Context) : Prop :=
  c.readToken = .ok d

/-- A context that the evaluation of a text comes to by successful transitions. -/
def Reaches (text : List Char) : Context → Prop :=
  Relation.ReflTransGen Steps (Context.ofText text)

theorem reaches_ofText (text : List Char) : Reaches text (Context.ofText text) :=
  .refl

theorem Reaches.step {text : List Char} {c d : Context} (hreaches : Reaches text c)
    (hstep : c.readToken = .ok d) : Reaches text d :=
  hreaches.tail hstep

/-- A context in the middle of a text, and the reading of what it has consumed. -/
structure Follows (text : List Char) (c : Context) (r : Reading) : Prop where
  mirrors : Mirrors c r
  text_eq : c.source.text = text
  seam : Seam c.source.passed c.source.rest
  read : Reading.enterAll {} (tokens c.source.passed) = .ok r

theorem follows_ofText (text : List Char) : Follows text (Context.ofText text) {} where
  mirrors := mirrors_ofText text
  text_eq := rfl
  seam := .inl rfl
  read := by
    change Reading.enterAll {} (tokens []) = _
    rw [tokens]
    rfl

theorem Follows.step {text : List Char} {c d : Context} {r : Reading} (hc : Follows text c r)
    (hstep : Steps c d) : ∃ s, Follows text d s := by
  obtain ⟨_, _, hcons⟩ := exists_rest_of_readToken hstep
  obtain ⟨piece, rest, hsplit, hpiece, hseam, hagrees⟩ := hc.mirrors.readToken (by simp [hcons])
  obtain ⟨s, hs, hds, hrest⟩ := hagrees.exists_right hstep
  obtain ⟨n, -, -, hsource⟩ := Context.source_readToken hstep
  have htake : c.source.rest.take n = piece := by
    have hdrop : c.source.rest.drop n = rest := by
      rw [← hrest, hsource, Source.rest_advance]
    have hjoin := List.take_append_drop n c.source.rest
    rw [hdrop, hsplit] at hjoin
    rw [hsplit]
    exact List.append_cancel_right hjoin
  have hpassed : d.source.passed = c.source.passed ++ piece := by
    rw [hsource, Source.passed_advance, htake]
  have hborder : Seam c.source.passed piece :=
    hc.seam.of_prefix (hsplit ▸ List.prefix_append piece rest)
  refine ⟨s, hds, ?_, ?_, ?_⟩
  · rw [hsource, Source.text_advance, hc.text_eq]
  · rw [hpassed, hrest]
    exact hseam.append_left hpiece _
  · rw [hpassed, tokens_append hborder, Reading.enterAll_append, hc.read]
    exact hs

theorem exists_follows_of_reaches {text : List Char} {c : Context} (hreaches : Reaches text c) :
    ∃ r, Follows text c r := by
  induction hreaches with
  | refl => exact ⟨{}, follows_ofText text⟩
  | tail _ hstep ih =>
    obtain ⟨r, hr⟩ := ih
    exact hr.step hstep

end InfixArithmetic.Evaluation
