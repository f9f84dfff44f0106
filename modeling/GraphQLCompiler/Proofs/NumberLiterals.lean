import GraphQLCompiler.Proofs.Overflow
import GraphQLCompiler.Syntax.Token

/-!
# Number literals

A text is a **number literal** if the scanner takes all of it for one number. It then has a sign,
digits, a fraction and an exponent, each as the grammar has it (`exists_parts`), and reading it as
a decimal number follows the same parts, so every number literal has a value
(`Decimal.read?_eq_some`).
-/

namespace GraphQLCompiler

open Token

/-- Whether a text is an integer literal. -/
def IsIntLiteral (text : String) : Prop :=
  number? text.toList = some (.int text, text.toList.length)

/-- Whether a text is a literal with a fraction or an exponent. -/
def IsFloatLiteral (text : String) : Prop :=
  number? text.toList = some (.float text, text.toList.length)

/-! ### Parts of literals -/

/-- Whether characters are a minus sign, or none. -/
def IsMinus (cs : List Char) : Prop := cs = ['-'] ∨ cs = []

/-- Whether characters are a fraction: a point and digits, or none. -/
def IsFraction (cs : List Char) : Prop := cs = [] ∨ ∃ ds, cs = '.' :: ds ∧ Decimal.areDigits ds

/-- Whether characters are an exponent: its letter, a sign or none, and digits, or none. -/
def IsExponent (cs : List Char) : Prop :=
  cs = [] ∨ ∃ c sign ds, cs = c :: (sign ++ ds) ∧ (c = 'e' ∨ c = 'E') ∧
    (IsMinus sign ∨ sign = ['+']) ∧ Decimal.areDigits ds

theorem areDigits_iff {cs : List Char} :
    Decimal.areDigits cs ↔ cs ≠ [] ∧ ∀ c ∈ cs, c.isDigit := by
  simp [Decimal.areDigits]

private theorem areDigits_digits {cs : List Char} (h : digits cs ≠ []) :
    Decimal.areDigits (digits cs) :=
  areDigits_iff.2 ⟨h, fun _ mem => List.mem_takeWhile_imp mem⟩

private theorem exists_of_integerPart? {cs whole : List Char} (h : integerPart? cs = some whole) :
    ∃ sign ds, whole = sign ++ ds ∧ IsMinus sign ∧ Decimal.areDigits ds := by
  unfold integerPart? at h
  dsimp only at h
  split at h
  · cases h
  · cases h
  · rename_i nonempty _
    cases h
    refine ⟨_, _, rfl, ?_, areDigits_digits nonempty⟩
    split
    · exact .inl rfl
    · exact .inr rfl

private theorem isFraction_of_fractionPart? {cs fraction : List Char}
    (h : fractionPart? cs = some fraction) : IsFraction fraction := by
  unfold fractionPart? at h
  split at h
  · split at h
    · cases h
    · rename_i nonempty
      cases h
      exact .inr ⟨_, rfl, areDigits_digits (by simpa using nonempty)⟩
  · cases h
    exact .inl rfl

private theorem isExponent_of_exponentPart? {cs exponent : List Char}
    (h : exponentPart? cs = some exponent) : IsExponent exponent := by
  unfold exponentPart? at h
  split at h
  · rename_i c rest
    split at h
    · rename_i letter
      dsimp only at h
      split at h
      · cases h
      · rename_i nonempty
        cases h
        refine .inr ⟨c, _, _, rfl, letter, ?_, areDigits_digits (by simpa using nonempty)⟩
        cases rest with
        | nil => exact .inl (.inr rfl)
        | cons s rest =>
          rw [List.take_succ_cons, List.take_zero, List.filter_singleton]
          by_cases minus : s = '-'
          · exact .inl (.inl (by simp [minus]))
          · by_cases plus : s = '+'
            · exact .inr (by simp [plus])
            · exact .inl (.inr (by simp [minus, plus]))
    · cases h
      exact .inl rfl
  · cases h
    exact .inl rfl

/-- **The parts of a number literal.** An integer literal has no fraction and no exponent. -/
theorem exists_parts {text : String} (literal : IsIntLiteral text ∨ IsFloatLiteral text) :
    ∃ sign ds fraction exponent, text.toList = sign ++ ds ++ fraction ++ exponent ∧
      IsMinus sign ∧ Decimal.areDigits ds ∧ IsFraction fraction ∧ IsExponent exponent ∧
      (IsIntLiteral text → fraction = [] ∧ exponent = []) := by
  obtain ⟨lexeme, number, whole⟩ : ∃ lexeme,
      number? text.toList = some (lexeme, text.toList.length) ∧
        (lexeme = .int text ∨ lexeme = .float text) :=
    literal.elim (⟨_, ·, .inl rfl⟩) (⟨_, ·, .inr rfl⟩)
  obtain ⟨integer, integerEq, h⟩ := Option.bind_eq_some_iff.1 number
  obtain ⟨fraction, fractionEq, h⟩ := Option.bind_eq_some_iff.1 h
  obtain ⟨exponent, exponentEq, h⟩ := Option.bind_eq_some_iff.1 h
  obtain ⟨-, -, h⟩ := Option.bind_eq_some_iff.1 h
  obtain ⟨sign, ds, rfl, isMinus, digits⟩ := exists_of_integerPart? integerEq
  refine ⟨sign, ds, fraction, exponent, ?_, isMinus, digits, isFraction_of_fractionPart? fractionEq,
    isExponent_of_exponentPart? exponentEq, ?_⟩
  all_goals
    simp only [pure, Option.some.injEq, Prod.mk.injEq] at h
    obtain ⟨rfl, -⟩ := h
  · split at whole
    · rcases whole with eq | eq
      · cases eq
        exact String.toList_ofList
      · cases eq
    · rcases whole with eq | eq
      · cases eq
      · cases eq
        exact String.toList_ofList
  · intro int
    have eq := (Prod.mk.inj (Option.some.inj (number.symm.trans int))).1
    split at eq
    · rename_i empty
      simpa using empty
    · cases eq

/-! ### Reading literals -/

private theorem span_digits {ds rest : List Char} (digits : ∀ c ∈ ds, c.isDigit)
    (stop : ∀ c ∈ rest.head?, c.isDigit = false) :
    (ds ++ rest).span Char.isDigit = (ds, rest) := by
  rw [List.span_eq_takeWhile_dropWhile, List.takeWhile_append_of_pos digits,
    List.dropWhile_append_of_pos digits]
  cases rest with
  | nil => simp
  | cons c rest =>
    have other : c.isDigit = false := stop c rfl
    simp [other]

private theorem splitMinus_append {sign ds : List Char} (isMinus : IsMinus sign)
    (digits : Decimal.areDigits ds) (rest : List Char) :
    Decimal.splitMinus (sign ++ ds ++ rest) = (decide (sign = ['-']), ds ++ rest) := by
  obtain ⟨nonempty, digits⟩ := areDigits_iff.1 digits
  obtain ⟨d, ds, rfl⟩ := List.exists_cons_of_ne_nil nonempty
  have notMinus : d ≠ '-' := by
    rintro rfl
    exact absurd (digits '-' List.mem_cons_self) (by decide)
  rcases isMinus with rfl | rfl
  · rfl
  · unfold Decimal.splitMinus
    split
    · rename_i eq
      exact absurd (List.cons.inj eq).1 notMinus
    · rfl

private theorem splitMinus_digits {sign ds : List Char} (isMinus : IsMinus sign)
    (digits : Decimal.areDigits ds) :
    Decimal.splitMinus (sign ++ ds) = (decide (sign = ['-']), ds) := by
  simpa only [List.append_nil] using splitMinus_append isMinus digits []

/-- What follows the digits of a number starts with none. -/
private theorem isDigit_head_eq_false {fraction exponent : List Char}
    (isFraction : IsFraction fraction) (isExponent : IsExponent exponent) :
    ∀ c ∈ (fraction ++ exponent).head?, c.isDigit = false := by
  rcases isFraction with rfl | ⟨ds, rfl, -⟩
  · rcases isExponent with rfl | ⟨c, sign, ds, rfl, letter, -, -⟩
    · simp
    · rcases letter with rfl | rfl <;> simp
  · simp

private theorem splitFraction_append {fraction exponent : List Char}
    (isFraction : IsFraction fraction) (isExponent : IsExponent exponent) :
    Decimal.splitFraction (fraction ++ exponent) = (fraction.drop 1, exponent) := by
  have stop := isDigit_head_eq_false (.inl rfl) isExponent
  rcases isFraction with rfl | ⟨ds, rfl, digits⟩
  · unfold Decimal.splitFraction
    split
    · rename_i rest eq
      rcases isExponent with rfl | ⟨c, sign, ds, rfl, letter, -, -⟩
      · cases eq
      · rcases letter with rfl | rfl <;> cases eq
    · rfl
  · exact span_digits (areDigits_iff.1 digits).2 stop

private theorem snd_splitSign_append {sign ds : List Char} (isSign : IsMinus sign ∨ sign = ['+'])
    (digits : Decimal.areDigits ds) : (Decimal.splitSign (sign ++ ds)).2 = ds := by
  rcases isSign with isMinus | rfl
  · unfold Decimal.splitSign
    split
    · -- neither a minus sign nor a digit is a plus sign
      rename_i rest eq
      rcases isMinus with rfl | rfl
      · cases eq
      · have plus := (areDigits_iff.1 digits).2 '+' (by simp [show ds = '+' :: rest from eq])
        exact absurd plus (by decide)
    · exact congrArg Prod.snd (splitMinus_digits isMinus digits)
  · rfl

private theorem exists_readExponent? {exponent : List Char} (isExponent : IsExponent exponent) :
    ∃ e, Decimal.readExponent? exponent = some e := by
  rcases isExponent with rfl | ⟨c, sign, ds, rfl, letter, isSign, digits⟩
  · exact ⟨0, rfl⟩
  · unfold Decimal.readExponent?
    dsimp only
    rw [snd_splitSign_append isSign digits, if_pos ⟨letter, digits⟩]
    exact ⟨_, rfl⟩

/-- **The value of a number literal**, read from its parts. -/
theorem Decimal.read?_eq_some {text : String} {sign ds fraction exponent : List Char} {e : Int}
    (parts : text.toList = sign ++ ds ++ fraction ++ exponent) (isMinus : IsMinus sign)
    (digits : areDigits ds) (isFraction : IsFraction fraction) (isExponent : IsExponent exponent)
    (exponentEq : readExponent? exponent = some e) :
    read? text = some
      { negative := decide (sign = ['-']), coefficient := ofDigits (ds ++ fraction.drop 1),
        exponent := e - (fraction.drop 1).length } := by
  have whole : (ds ++ (fraction ++ exponent)).span Char.isDigit = (ds, fraction ++ exponent) :=
    span_digits (areDigits_iff.1 digits).2 (isDigit_head_eq_false isFraction isExponent)
  have all : areDigits (ds ++ fraction.drop 1) := by
    obtain ⟨nonempty, digits⟩ := areDigits_iff.1 digits
    refine areDigits_iff.2 ⟨fun eq => nonempty (List.append_eq_nil_iff.1 eq).1, fun c mem => ?_⟩
    rcases List.mem_append.1 mem with mem | mem
    · exact digits c mem
    · rcases isFraction with rfl | ⟨ds, rfl, digits⟩
      · cases mem
      · exact (areDigits_iff.1 digits).2 c mem
  rw [List.append_assoc] at parts
  unfold read?
  simp only [parts, splitMinus_append isMinus digits, whole,
    splitFraction_append isFraction isExponent, all, exponentEq, guard_true, bind_pure_comp]
  rfl

/-- Every number literal has a value. -/
theorem exists_read? {text : String} (literal : IsIntLiteral text ∨ IsFloatLiteral text) :
    ∃ d, Decimal.read? text = some d := by
  obtain ⟨sign, ds, fraction, exponent, parts, isMinus, digits, isFraction, isExponent, -⟩ :=
    exists_parts literal
  obtain ⟨e, exponentEq⟩ := exists_readExponent? isExponent
  exact ⟨_, Decimal.read?_eq_some parts isMinus digits isFraction isExponent exponentEq⟩

/-- An integer literal has the same value as an integer and as a decimal number. -/
theorem exists_readInt? {text : String} (literal : IsIntLiteral text) :
    ∃ n d, readInt? text = some n ∧ Decimal.read? text = some d ∧ d.abs = |(n : ℚ)| := by
  obtain ⟨sign, ds, fraction, exponent, parts, isMinus, digits, isFraction, isExponent, integer⟩ :=
    exists_parts (.inl literal)
  obtain ⟨rfl, rfl⟩ := integer literal
  have decimal := Decimal.read?_eq_some parts isMinus digits isFraction isExponent rfl
  rw [List.append_nil, List.append_nil] at parts
  have int : readInt? text = some (if decide (sign = ['-'])
      then -(Decimal.ofDigits ds : Int) else Decimal.ofDigits ds) := by
    rw [readInt?, parts, splitMinus_digits isMinus digits]
    exact if_pos digits
  refine ⟨_, _, int, decimal, ?_⟩
  by_cases minus : sign = ['-'] <;> simp [Decimal.abs, minus]

end GraphQLCompiler
