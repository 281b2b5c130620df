/-!
# White space

Two sets of characters count as white space. `isSpace` is the wider one and decides what
is trimmed from the ends of a line; `isBlank` leaves out the four information separators
U+001C to U+001F and decides what may stand between the tokens of an expression.
-/

namespace InfixArithmetic.Text

/-- The information separators: file, group, record and unit. -/
def isSeparatorControl (c : Char) : Bool :=
  0x1C ≤ c.toNat && c.toNat ≤ 0x1F

/-- The blank characters: the ASCII ones from tab to carriage return, the space, and the
spaces and line ends of the wider character set. -/
def isBlank (c : Char) : Bool :=
  let n := c.toNat
  (0x09 ≤ n && n ≤ 0x0D) || n == 0x20 || n == 0x85 || n == 0xA0 || n == 0x1680 ||
    (0x2000 ≤ n && n ≤ 0x200A) || n == 0x2028 || n == 0x2029 || n == 0x202F ||
    n == 0x205F || n == 0x3000

def isSpace (c : Char) : Bool :=
  isBlank c || isSeparatorControl c

def trimBy (p : Char → Bool) (text : List Char) : List Char :=
  ((text.dropWhile p).reverse.dropWhile p).reverse

theorem isBlank_iff (c : Char) :
    isBlank c = true ↔ isSpace c = true ∧ isSeparatorControl c = false := by
  constructor
  · intro hblank
    refine ⟨by simp [isSpace, hblank], ?_⟩
    simp only [isBlank, isSeparatorControl, Bool.or_eq_true, Bool.and_eq_true,
      decide_eq_true_eq, beq_iff_eq, Bool.and_eq_false_iff, decide_eq_false_iff_not] at hblank ⊢
    omega
  · rintro ⟨hspace, hcontrol⟩
    simpa [isSpace, hcontrol] using hspace

theorem isSpace_eq_false_of_isDigit {c : Char} (hdigit : c.isDigit = true) :
    isSpace c = false := by
  have hlow : 48 ≤ c.toNat := by
    simp only [Char.isDigit, Bool.and_eq_true, decide_eq_true_eq] at hdigit
    exact hdigit.1
  have hhigh : c.toNat ≤ 57 := by
    simp only [Char.isDigit, Bool.and_eq_true, decide_eq_true_eq] at hdigit
    exact hdigit.2
  simp only [isSpace, isBlank, isSeparatorControl, Bool.or_eq_false_iff, Bool.and_eq_false_iff,
    decide_eq_false_iff_not, beq_eq_false_iff_ne]
  omega

theorem head_trimBy (p : Char → Bool) (text : List Char) (c : Char)
    (hhead : (trimBy p text).head? = some c) : p c = false := by
  have hpresuffix : trimBy p text <+: text.dropWhile p := by
    have hsuffix := List.dropWhile_suffix (l := (text.dropWhile p).reverse) p
    have := List.reverse_prefix.2 hsuffix
    simpa [trimBy] using this
  obtain ⟨tail, htail⟩ := hpresuffix
  have hdrop : (text.dropWhile p).head? = some c := by
    rw [← htail]
    cases htrim : trimBy p text with
    | nil => simp [htrim] at hhead
    | cons a rest => simpa [htrim] using hhead
  have := List.head?_dropWhile_not p text
  simpa [hdrop] using this

end InfixArithmetic.Text
