import InfixArithmetic.Operator
import InfixArithmetic.Text.Blank
import InfixArithmetic.Text.Decimal
import Mathlib.Data.List.Chain
import Mathlib.Data.List.TakeWhile
/-!
# Tokens and their layout

A text is a sequence of tokens with blanks around them. `tokens` cuts a text, taking runs of
digits as long as they are; `LaidOut` says that a text writes given tokens. Every text writes
its own tokens (`laidOut_tokens`), and tokens without neighbouring literals are recovered from
every text that writes them (`tokens_eq_of_laidOut`).
-/

namespace InfixArithmetic.Evaluation

open Text (isBlank)

/-- A run of one or more ASCII digits. -/
structure Numeral where
  digits : List Char
  ne_nil : digits ≠ []
  isDigit_of_mem : ∀ c ∈ digits, c.isDigit = true
  deriving DecidableEq

namespace Numeral

def value (n : Numeral) : Nat :=
  Text.Decimal.ofDigits n.digits

def ofRun (c : Char) (rest : List Char) (hdigit : c.isDigit = true) : Numeral where
  digits := c :: rest.takeWhile Char.isDigit
  ne_nil := by simp
  isDigit_of_mem := by
    intro d hd
    rcases List.mem_cons.1 hd with rfl | hd
    · exact hdigit
    · exact List.mem_takeWhile_imp hd

def ofNat (n : Nat) : Numeral where
  digits := Text.Decimal.digits n
  ne_nil := Text.Decimal.digits_ne_nil n
  isDigit_of_mem := Text.Decimal.isDigit_of_mem_digits n

theorem value_ofNat (n : Nat) : (ofNat n).value = n :=
  Text.Decimal.ofDigits_digits n

end Numeral

/-- What an expression is made of; `invalid` is a character that starts no token. -/
inductive Token where
  | literal (numeral : Numeral)
  | opening
  | closing
  | operator (op : Operator)
  | invalid (character : Char)
  deriving DecidableEq

namespace Token

def chars : Token → List Char
  | literal n => n.digits
  | opening => ['(']
  | closing => [')']
  | operator op => [op.symbol]
  | invalid c => [c]

def ofChar (c : Char) : Token :=
  if c = '(' then opening
  else if c = ')' then closing
  else match Operator.ofChar? c with
    | some op => operator op
    | none => invalid c

def IsLiteral : Token → Prop
  | literal _ => True
  | _ => False

def IsInvalid : Token → Prop
  | invalid _ => True
  | _ => False

theorem chars_ofChar (c : Char) : (ofChar c).chars = [c] := by
  unfold ofChar
  split
  · rename_i hopen
    simp [chars, hopen]
  split
  · rename_i hclose
    simp [chars, hclose]
  split
  · rename_i op hop
    simp [chars, Operator.symbol_eq_of_ofChar?_eq_some hop]
  · rfl

theorem ofChar_cases (c : Char) :
    c = '(' ∨ c = ')' ∨ (∃ op : Operator, c = op.symbol) ∨
      c ≠ '(' ∧ c ≠ ')' ∧ Operator.ofChar? c = none ∧ ofChar c = invalid c := by
  by_cases hopen : c = '('
  · exact .inl hopen
  by_cases hclose : c = ')'
  · exact .inr (.inl hclose)
  cases hop : Operator.ofChar? c with
  | some op => exact .inr (.inr (.inl ⟨op, (Operator.symbol_eq_of_ofChar?_eq_some hop).symm⟩))
  | none => exact .inr (.inr (.inr ⟨hopen, hclose, rfl, by simp [ofChar, hopen, hclose, hop]⟩))

theorem chars_of_not_isLiteral {token : Token} (hliteral : ¬ token.IsLiteral)
    (hvalid : ¬ token.IsInvalid) :
    ∃ c, token.chars = [c] ∧ isBlank c = false ∧ c.isDigit = false ∧ ofChar c = token := by
  cases token with
  | literal n => exact absurd trivial hliteral
  | opening => exact ⟨'(', rfl, by decide, by decide, rfl⟩
  | closing => exact ⟨')', rfl, by decide, by decide, rfl⟩
  | operator op =>
    refine ⟨op.symbol, rfl, ?_⟩
    cases op <;> decide
  | invalid c => exact absurd trivial hvalid

end Token

def startsWithDigit (text : List Char) : Bool :=
  text.head?.any Char.isDigit

theorem startsWithDigit_cons {c : Char} {rest : List Char} :
    startsWithDigit (c :: rest) = c.isDigit :=
  rfl

/-- The tokens of a text: blanks are skipped and runs of digits are kept together. -/
def tokens : List Char → List Token
  | [] => []
  | c :: rest =>
    if isBlank c = true then tokens rest
    else if hdigit : c.isDigit = true then
      .literal (.ofRun c rest hdigit) :: tokens (rest.dropWhile Char.isDigit)
    else .ofChar c :: tokens rest
termination_by text => text.length
decreasing_by
  · simp
  · have hle := (List.dropWhile_sublist (l := rest) Char.isDigit).length_le
    simp only [List.length_cons]
    omega
  · simp

/-- A text that writes tokens, with any blanks before, between and after them. -/
inductive LaidOut : List Token → List Char → Prop
  | nil {blanks : List Char} (hblanks : ∀ c ∈ blanks, isBlank c = true) : LaidOut [] blanks
  | cons {blanks text : List Char} {token : Token} {rest : List Token}
      (hblanks : ∀ c ∈ blanks, isBlank c = true) (hrest : LaidOut rest text) :
      LaidOut (token :: rest) (blanks ++ token.chars ++ text)

theorem LaidOut.cons_token {rest : List Token} {text : List Char} (hrest : LaidOut rest text)
    (token : Token) : LaidOut (token :: rest) (token.chars ++ text) :=
  @LaidOut.cons [] text token rest (by simp) hrest

theorem laidOut_flatMap_chars (rest : List Token) : LaidOut rest (rest.flatMap Token.chars) := by
  induction rest with
  | nil => exact .nil (by simp)
  | cons token rest ih => exact ih.cons_token token

theorem isDigit_eq_false_of_isBlank {c : Char} (hblank : isBlank c = true) :
    c.isDigit = false := by
  by_contra hdigit
  have hspace := Text.isSpace_eq_false_of_isDigit (Bool.of_not_eq_false hdigit)
  simp [Text.isSpace, hblank] at hspace

theorem isBlank_eq_false_of_isDigit {c : Char} (hdigit : c.isDigit = true) :
    isBlank c = false := by
  by_contra hblank
  have hfalse := isDigit_eq_false_of_isBlank (Bool.of_not_eq_false hblank)
  rw [hdigit] at hfalse
  cases hfalse

theorem tokens_cons_of_isBlank {c : Char} {rest : List Char} (hblank : isBlank c = true) :
    tokens (c :: rest) = tokens rest := by
  rw [tokens, if_pos hblank]

theorem tokens_cons_of_isDigit {c : Char} {rest : List Char} (hdigit : c.isDigit = true) :
    tokens (c :: rest) =
      .literal (.ofRun c rest hdigit) :: tokens (rest.dropWhile Char.isDigit) := by
  rw [tokens, if_neg (by simp [isBlank_eq_false_of_isDigit hdigit]), dif_pos hdigit]

theorem tokens_cons_of_other {c : Char} {rest : List Char} (hblank : isBlank c = false)
    (hdigit : c.isDigit = false) : tokens (c :: rest) = .ofChar c :: tokens rest := by
  rw [tokens, if_neg (by simp [hblank]), dif_neg (by simp [hdigit])]

theorem tokens_append_of_isBlank {blanks : List Char}
    (hblanks : ∀ c ∈ blanks, isBlank c = true) (text : List Char) :
    tokens (blanks ++ text) = tokens text := by
  induction blanks with
  | nil => rfl
  | cons c blanks ih =>
    rw [List.cons_append, tokens_cons_of_isBlank (hblanks c (by simp))]
    exact ih (fun d hd => hblanks d (by simp [hd]))

theorem tokens_numeral_append (n : Numeral) {text : List Char}
    (hhead : startsWithDigit text = false) :
    tokens (n.digits ++ text) = .literal n :: tokens text := by
  obtain ⟨digits, hne, hdigits⟩ := n
  cases digits with
  | nil => exact absurd rfl hne
  | cons c digits =>
    have htake : (digits ++ text).takeWhile Char.isDigit = digits := by
      rw [List.takeWhile_append_of_pos (fun d hd => hdigits d (by simp [hd]))]
      cases text with
      | nil => simp
      | cons d text => simp [startsWithDigit_cons.symm.trans hhead]
    have hdrop : (digits ++ text).dropWhile Char.isDigit = text := by
      rw [List.dropWhile_append_of_pos (fun d hd => hdigits d (by simp [hd]))]
      cases text with
      | nil => rfl
      | cons d text => simp [startsWithDigit_cons.symm.trans hhead]
    have hdigit : c.isDigit = true := hdigits c (by simp)
    change tokens (c :: (digits ++ text)) = _
    rw [tokens_cons_of_isDigit hdigit, hdrop]
    congr 2
    simp [Numeral.ofRun, htake]

theorem laidOut_tokens (text : List Char) : LaidOut (tokens text) text := by
  induction text using tokens.induct with
  | case1 =>
    rw [tokens]
    exact .nil (by simp)
  | case2 c rest hblank ih =>
    rw [tokens_cons_of_isBlank hblank]
    generalize tokens rest = remaining at ih
    cases ih with
    | nil hblanks => exact .nil (by simpa [hblank] using hblanks)
    | @cons blanks _ token _ hblanks hrest =>
      have hall : ∀ d ∈ c :: blanks, isBlank d = true := by simpa [hblank] using hblanks
      exact .cons hall hrest
  | case3 c rest _ hdigit ih =>
    rw [tokens_cons_of_isDigit hdigit]
    have hcons := ih.cons_token (.literal (.ofRun c rest hdigit))
    simpa [Token.chars, Numeral.ofRun, List.takeWhile_append_dropWhile] using hcons
  | case4 c rest hblank hdigit ih =>
    rw [tokens_cons_of_other (by simpa using hblank) (by simpa using hdigit)]
    have hcons := ih.cons_token (.ofChar c)
    simpa [Token.chars_ofChar] using hcons

theorem LaidOut.startsWithDigit_eq_false {rest : List Token} {text : List Char}
    (hlaid : LaidOut rest text)
    (hhead : ∀ token ∈ rest.head?, ¬ token.IsLiteral ∧ ¬ token.IsInvalid) :
    startsWithDigit text = false := by
  cases hlaid with
  | nil hblanks =>
    cases text with
    | nil => rfl
    | cons c text => exact isDigit_eq_false_of_isBlank (hblanks c (by simp))
  | @cons blanks text token rest hblanks hrest =>
    cases blanks with
    | cons d blanks => exact isDigit_eq_false_of_isBlank (hblanks d (by simp))
    | nil =>
      obtain ⟨hliteral, hvalid⟩ := hhead token (by simp)
      obtain ⟨d, hchars, _, hdigit, _⟩ := Token.chars_of_not_isLiteral hliteral hvalid
      rw [hchars]
      exact hdigit

def Separated (rest : List Token) : Prop :=
  (∀ token ∈ rest, ¬ token.IsInvalid) ∧
    rest.IsChain (fun left right => left.IsLiteral → ¬ right.IsLiteral)

theorem tokens_eq_of_laidOut {rest : List Token} {text : List Char}
    (hlaid : LaidOut rest text) (hseparated : Separated rest) : tokens text = rest := by
  induction hlaid with
  | nil hblanks =>
    have hskip := tokens_append_of_isBlank hblanks []
    rw [List.append_nil] at hskip
    rw [hskip, tokens]
  | @cons blanks text token rest hblanks hrest ih =>
    obtain ⟨hvalid, hchain⟩ := hseparated
    have hvalidRest : ∀ other ∈ rest, ¬ other.IsInvalid :=
      fun other hother => hvalid other (by simp [hother])
    have htail : tokens text = rest := ih ⟨hvalidRest, hchain.tail⟩
    rw [List.append_assoc, tokens_append_of_isBlank hblanks]
    by_cases hliteral : token.IsLiteral
    · cases token with
      | literal n =>
        have hhead : ∀ other ∈ rest.head?, ¬ other.IsLiteral ∧ ¬ other.IsInvalid := by
          intro other hother
          exact ⟨hchain.rel_head? hother hliteral, hvalidRest other (List.mem_of_mem_head? hother)⟩
        rw [Token.chars, tokens_numeral_append n (hrest.startsWithDigit_eq_false hhead), htail]
      | opening | closing | operator | invalid => exact hliteral.elim
    · obtain ⟨c, hchars, hblank, hdigit, hofChar⟩ :=
        Token.chars_of_not_isLiteral hliteral (hvalid token (by simp))
      rw [hchars, List.singleton_append, tokens_cons_of_other hblank hdigit, hofChar, htail]

end InfixArithmetic.Evaluation
