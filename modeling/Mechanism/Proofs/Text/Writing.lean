import Mechanism.Proofs.Tensor.Algebra
import Mechanism.Proofs.Text.Extent
import Mechanism.Proofs.Text.Phrases

/-!
The text of an expression can be read in one way only, and what is read has the value of the
expression. So expressions that are written alike have the same values, if their symbols have
different names and their numbers can be told from their numerals.

### Expressions
-/

namespace Mechanism

namespace Text

/-! ### Names and numerals -/

/-- The name of the symbol that an atom belongs to, and the places that are written behind it. -/
def spelling : Atom → Lexeme × List Lexeme
  | .whole symbol => (symbol.name.toList, [])
  | .entry symbol row column =>
    match symbol.shape with
    | .matrix .. => (symbol.name.toList, [(toString row).toList, (toString column).toList])
    | _ => (symbol.name.toList, [(toString row).toList])

structure Vocabulary where
  symbols : List Symbol
  named : ∀ symbol ∈ symbols, isName symbol.name.toList = true
  distinct : (symbols.map Symbol.name).Nodup
  numeral : Lexeme → Option ℝ

namespace Vocabulary

variable (vocabulary : Vocabulary)

def atoms : List Atom := vocabulary.symbols.flatMap Symbol.atoms

/-- What can be read, where the entries have the given values. -/
noncomputable def lexicon (assignment : Assignment) : Lexicon where
  numeral := vocabulary.numeral
  entry name places :=
    (vocabulary.atoms.find? fun atom => spelling atom = (name, places)).bind assignment

end Vocabulary

theorem toString_inj {first second : Nat} (same : (toString first).toList = (toString second).toList) :
    first = second := by
  rw [Nat.toString_eq_repr, Nat.toString_eq_repr, Nat.toList_repr, Nat.toList_repr] at same
  have read := congrArg (Nat.ofDigitChars 10 · 0) same
  simpa only [Nat.ofDigitChars_ten_toDigits] using read

theorem spelling_name (atom : Atom) : (spelling atom).1 = atom.symbol.name.toList := by
  unfold spelling
  split
  · rfl
  · split <;> rfl

theorem symbol_of_mem_atoms {symbol : Symbol} {atom : Atom} (member : atom ∈ symbol.atoms) :
    atom.symbol = symbol := by
  obtain ⟨⟨row, column⟩, _, rfl⟩ := List.mem_map.mp member
  exact symbol.symbol_atomAt row column

theorem spelling_inj {symbol : Symbol} {first second : Atom} (here : first ∈ symbol.atoms)
    (there : second ∈ symbol.atoms) (same : spelling first = spelling second) : first = second := by
  obtain ⟨⟨row, column⟩, place, rfl⟩ := List.mem_map.mp here
  obtain ⟨⟨row', column'⟩, place', rfl⟩ := List.mem_map.mp there
  simp only [Shape.places, List.mem_flatMap, List.mem_map, List.mem_range, Prod.mk.injEq] at place place'
  obtain ⟨_, _, _, inside, rfl, rfl⟩ := place
  obtain ⟨_, _, _, inside', rfl, rfl⟩ := place'
  cases shape : symbol.shape with
  | scalar => simp [Symbol.atomAt, Shape.isScalar, shape]
  | vector length =>
      simp only [Symbol.atomAt, Shape.isScalar, shape, spelling, Shape.columns, reduceCtorEq,
        beq_iff_eq, if_false, Prod.mk.injEq, true_and, List.cons.injEq, and_true] at same inside inside' ⊢
      rw [toString_inj same, Nat.lt_one_iff.mp inside, Nat.lt_one_iff.mp inside']
  | matrix rows columns =>
      simp only [Symbol.atomAt, Shape.isScalar, shape, spelling, reduceCtorEq, beq_iff_eq, if_false,
        Prod.mk.injEq, true_and, List.cons.injEq, and_true] at same ⊢
      rw [toString_inj same.1, toString_inj same.2]

namespace Vocabulary

variable (vocabulary : Vocabulary)

theorem spelling_inj {first second : Atom} (here : first ∈ vocabulary.atoms)
    (there : second ∈ vocabulary.atoms) (same : spelling first = spelling second) :
    first = second := by
  obtain ⟨symbol, known, inside⟩ := List.mem_flatMap.mp here
  obtain ⟨other, known', inside'⟩ := List.mem_flatMap.mp there
  have names : first.symbol.name.toList = second.symbol.name.toList := by
    rw [← spelling_name, same, spelling_name]
  rw [symbol_of_mem_atoms inside, symbol_of_mem_atoms inside', String.toList_inj] at names
  obtain rfl := List.inj_on_of_nodup_map vocabulary.distinct known known' names
  exact Text.spelling_inj inside inside' same

theorem entry_eq (assignment : Assignment) {atom : Atom} (known : atom ∈ vocabulary.atoms) :
    (vocabulary.lexicon assignment).entry (spelling atom).1 (spelling atom).2 = assignment atom := by
  unfold lexicon
  cases found : vocabulary.atoms.find? fun other => spelling other = spelling atom with
  | none => exact absurd (List.find?_eq_none.mp found atom known) (by simp)
  | some other =>
      have same : other = atom := vocabulary.spelling_inj (List.mem_of_find?_eq_some found) known
        (by simpa using List.find?_some found)
      simp [found, same]

end Vocabulary

/-! ### Pieces of text -/

/-- The text of a piece is read at the level, and has the value that is meant wherever one is. -/
structure Piece (vocabulary : Vocabulary) (level : Level) (text : String)
    (meaning : Assignment → ℝ → Prop) : Prop where
  reads : ∃ written phrase, Spells text.toList written ∧ Reads level written phrase ∧
    ∀ assignment value, meaning assignment value →
      phrase.value (vocabulary.lexicon assignment) = some value

structure Separates (text : String) (mark : Lexeme) : Prop where
  opens : Opens text.toList [mark]
  begins : ∃ first ∈ breaks, text.toList.head? = some first

theorem Separates.of_marks {text : String} {first : Char} {rest : List Char} {mark : Lexeme}
    (written : text.toList = first :: rest) (begins : first ∈ breaks)
    (marks : (first :: rest).all ('-' :: breaks).contains = true)
    (single : ((first :: rest).filter (· != ' ')).map (fun character => [character]) = [mark]) :
    Separates text mark :=
  ⟨written ▸ single ▸ Opens.marks marks, first, begins, written ▸ rfl⟩

theorem Separates.between {text : String} {mark : Lexeme} (separates : Separates text mark)
    {before after : List Char} {written further : List Lexeme} (first : Spells before written)
    (second : Spells after further) :
    Spells (before ++ text.toList ++ after) (written ++ mark :: further) := by
  obtain ⟨start, isBreak, head⟩ := separates.begins
  have whole := (first.opens separates.opens head isBreak).append_spells second
  rwa [List.append_assoc written] at whole

theorem Separates.after {text : String} {mark : Lexeme} (separates : Separates text mark)
    {before : List Char} {written : List Lexeme} (first : Spells before written) :
    Opens (before ++ text.toList) (written ++ [mark]) := by
  obtain ⟨start, isBreak, head⟩ := separates.begins
  exact first.opens separates.opens head isBreak

theorem separates_close : Separates ")" [')'] := .of_marks rfl (by decide) (by decide) rfl

theorem separates_open : Separates "(" ['('] := .of_marks rfl (by decide) (by decide) rfl

theorem separates_bracket : Separates "[" ['['] := .of_marks rfl (by decide) (by decide) rfl

theorem separates_unbracket : Separates "]" [']'] := .of_marks rfl (by decide) (by decide) rfl

theorem separates_between : Separates "," [','] := .of_marks rfl (by decide) (by decide) rfl

theorem separates_comma : Separates ", " [','] := .of_marks rfl (by decide) (by decide) rfl

namespace Piece

variable {vocabulary : Vocabulary} {level : Level} {text more : String}
  {meaning other : Assignment → ℝ → Prop}

theorem imp (piece : Piece vocabulary level text meaning)
    (means : ∀ assignment value, other assignment value → meaning assignment value) :
    Piece vocabulary level text other := by
  obtain ⟨written, phrase, spells, reads, values⟩ := piece.reads
  exact ⟨written, phrase, spells, reads, fun _ _ holds => values _ _ (means _ _ holds)⟩

theorem toFactor (piece : Piece vocabulary .primary text meaning) :
    Piece vocabulary .factor text meaning := by
  obtain ⟨written, phrase, spells, reads, values⟩ := piece.reads
  exact ⟨written, phrase, spells, .factor reads, values⟩

theorem toProduct (piece : Piece vocabulary .factor text meaning) :
    Piece vocabulary .product text meaning := by
  obtain ⟨written, phrase, spells, reads, values⟩ := piece.reads
  exact ⟨written, phrase, spells, .product reads, values⟩

theorem toSum (piece : Piece vocabulary .product text meaning) :
    Piece vocabulary .sum text meaning := by
  obtain ⟨written, phrase, spells, reads, values⟩ := piece.reads
  exact ⟨written, phrase, spells, .sum reads, values⟩

theorem enclosed (piece : Piece vocabulary .sum text meaning) :
    Piece vocabulary .primary ("(" ++ text ++ ")") meaning := by
  obtain ⟨written, phrase, spells, reads, values⟩ := piece.reads
  refine ⟨_, phrase, ?_, .enclosed reads, values⟩
  rw [String.toList_append, String.toList_append]
  exact (separates_close.after (separates_open.opens.append_spells spells)).spells

theorem joined {separator : String} {mark : Lexeme} {operation : Operation}
    (separates : Separates separator mark) (marked : level.operation? mark = some operation)
    (first : Piece vocabulary level text meaning)
    (second : Piece vocabulary level.operand more other) :
    Piece vocabulary level (text ++ separator ++ more) fun assignment value =>
      ∃ x y, meaning assignment x ∧ other assignment y ∧ operation.value x y = some value := by
  obtain ⟨written, left, spells, reads, values⟩ := first.reads
  obtain ⟨further, right, spellsMore, readsMore, valuesMore⟩ := second.reads
  refine ⟨_, _, ?_, .joined marked reads readsMore, ?_⟩
  · rw [String.toList_append, String.toList_append]
    exact separates.between spells spellsMore
  · rintro assignment value ⟨x, y, leftMeans, rightMeans, result⟩
    exact value_joined.mpr ⟨x, y, values _ _ leftMeans, valuesMore _ _ rightMeans, result⟩

theorem times (first : Piece vocabulary .product text meaning)
    (second : Piece vocabulary .product more other) :
    Piece vocabulary .product (text ++ "*" ++ more) fun assignment value =>
      ∃ x y, meaning assignment x ∧ other assignment y ∧ x * y = value := by
  obtain ⟨written, left, spells, reads, values⟩ := first.reads
  obtain ⟨further, right, spellsMore, readsMore, valuesMore⟩ := second.reads
  obtain ⟨phrase, readsBoth, valuesBoth⟩ := reads.times readsMore
  have separates : Separates "*" ['*'] := .of_marks rfl (by decide) (by decide) rfl
  refine ⟨_, phrase, ?_, readsBoth, ?_⟩
  · rw [String.toList_append, String.toList_append]
    exact separates.between spells spellsMore
  · rintro assignment _ ⟨x, y, leftMeans, rightMeans, rfl⟩
    exact valuesBoth _ x y (values _ _ leftMeans) (valuesMore _ _ rightMeans)

theorem opposite (piece : Piece vocabulary .product text meaning) :
    Piece vocabulary .product ("-" ++ text) fun assignment value => meaning assignment (-value) := by
  obtain ⟨written, phrase, spells, reads, values⟩ := piece.reads
  obtain ⟨opposite, readsOpposite, valuesOpposite⟩ := reads.opposite
  have opens : Opens ['-'] [['-']] := Opens.marks (by decide)
  refine ⟨_, opposite, ?_, readsOpposite, fun assignment value means => ?_⟩
  · rw [String.toList_append]
    exact opens.append_spells spells
  · have result := valuesOpposite _ _ (values _ _ means)
    rwa [neg_neg] at result

theorem power (first : Piece vocabulary .primary text meaning)
    (second : Piece vocabulary .factor more other) :
    Piece vocabulary .factor (text ++ "^" ++ more) fun assignment value =>
      ∃ b e, meaning assignment b ∧ other assignment e ∧ realPower b e = some value := by
  obtain ⟨written, base, spells, reads, values⟩ := first.reads
  obtain ⟨further, exponent, spellsMore, readsMore, valuesMore⟩ := second.reads
  have separates : Separates "^" ['^'] := .of_marks rfl (by decide) (by decide) rfl
  refine ⟨_, _, ?_, .power reads readsMore, ?_⟩
  · rw [String.toList_append, String.toList_append]
    exact separates.between spells spellsMore
  · rintro assignment value ⟨b, e, baseMeans, exponentMeans, result⟩
    simp [Phrase.value, values _ _ baseMeans, valuesMore _ _ exponentMeans, result]

theorem numeral {value : ℝ} (isNumeral : isNumeral text.toList = true)
    (known : vocabulary.numeral text.toList = some value) :
    Piece vocabulary .primary text fun _ other => other = value := by
  refine ⟨_, _, .whole (isWhole_of_isNumeral isNumeral), .numeral isNumeral, ?_⟩
  rintro assignment _ rfl
  exact known

theorem entry {atom : Atom} (known : atom ∈ vocabulary.atoms) :
    Piece vocabulary .primary atom.text fun assignment value => assignment atom = some value := by
  obtain ⟨symbol, listed, inside⟩ := List.mem_flatMap.mp known
  have isName : isName atom.symbol.name.toList = true :=
    symbol_of_mem_atoms inside ▸ vocabulary.named symbol listed
  have values (assignment : Assignment) (value : ℝ) (means : assignment atom = some value) :
      (Phrase.entry (spelling atom).1 (spelling atom).2).value (vocabulary.lexicon assignment) =
        some value :=
    (vocabulary.entry_eq assignment known).trans means
  have name := Spells.whole (isWhole_of_isName isName)
  cases atom with
  | whole symbol => exact ⟨_, _, name, .name isName, values⟩
  | entry symbol row column =>
      have opens := separates_bracket.after name
      have first := opens.append_spells (.whole (isWhole_of_isNumeral (isNumeral_repr row)))
      have single (places : (spelling (.entry symbol row column)).2 = [(toString row).toList])
          (text : (Atom.entry symbol row column).text = symbol.name ++ "[" ++ toString row ++ "]") :
          Piece vocabulary .primary (Atom.entry symbol row column).text fun assignment value =>
            assignment (.entry symbol row column) = some value := by
        refine ⟨_, .entry symbol.name.toList [(toString row).toList], ?_, .place isName, ?_⟩
        · rw [text]
          simp only [String.toList_append]
          exact (separates_unbracket.after first).spells
        · intro assignment value means
          have read := values assignment value means
          rwa [spelling_name, places] at read
      cases shape : symbol.shape with
      | scalar => exact single (by simp [spelling, shape]) (by simp [Atom.text, shape])
      | vector length => exact single (by simp [spelling, shape]) (by simp [Atom.text, shape])
      | matrix rows columns =>
          have second := (separates_between.after first).append_spells
            (.whole (isWhole_of_isNumeral (isNumeral_repr column)))
          refine ⟨_, .entry symbol.name.toList [(toString row).toList, (toString column).toList], ?_,
            .places isName, ?_⟩
          · simp only [Atom.text, shape, String.toList_append]
            exact (separates_unbracket.after second).spells
          · intro assignment value means
            have read := values assignment value means
            simpa only [spelling, shape] using read

theorem call (function : Elementary) (argument : Piece vocabulary .sum text meaning) :
    Piece vocabulary .primary (function.name ++ "(" ++ text ++ ")") fun assignment value =>
      ∃ x, meaning assignment x ∧ function.realApply x = some value := by
  obtain ⟨written, phrase, spells, reads, values⟩ := argument.reads
  have name : Spells function.name.toList [function.name.toList] :=
    .whole (by cases function <;> decide)
  refine ⟨_, _, ?_, .call function reads, ?_⟩
  · simp only [String.toList_append]
    exact (separates_close.after ((separates_open.after name).append_spells spells)).spells
  · rintro assignment value ⟨x, means, result⟩
    simp [Phrase.value, values _ _ means, result]

theorem angle (first : Piece vocabulary .sum text meaning) (second : Piece vocabulary .sum more other) :
    Piece vocabulary .primary ("atan2(" ++ text ++ ", " ++ more ++ ")") fun assignment value =>
      ∃ ordinate abscissa, meaning assignment ordinate ∧ other assignment abscissa ∧
        realAngle ordinate abscissa = value := by
  obtain ⟨written, y, spells, reads, values⟩ := first.reads
  obtain ⟨further, x, spellsMore, readsMore, valuesMore⟩ := second.reads
  have name : Spells "atan2".toList ["atan2".toList] := .whole (by decide)
  have opens : Opens "atan2(".toList ["atan2".toList, ['(']] := separates_open.after name
  refine ⟨_, _, ?_, .angle reads readsMore, ?_⟩
  · simp only [String.toList_append]
    have inside := separates_comma.between (opens.append_spells spells) spellsMore
    have whole := (separates_close.after inside).spells
    simpa using whole
  · rintro assignment _ ⟨ordinate, abscissa, yMeans, xMeans, rfl⟩
    simp [Phrase.value, values _ _ yMeans, valuesMore _ _ xMeans]

open Classical in
theorem choice (relation : Relation) {left right chosen otherwise : String}
    {leftMeans rightMeans chosenMeans otherwiseMeans : Assignment → ℝ → Prop}
    (first : Piece vocabulary .sum left leftMeans) (second : Piece vocabulary .sum right rightMeans)
    (third : Piece vocabulary .sum chosen chosenMeans)
    (fourth : Piece vocabulary .sum otherwise otherwiseMeans) :
    Piece vocabulary .primary ("if(" ++ left ++ " " ++ relation.mark ++ " " ++ right ++ ", " ++
      chosen ++ ", " ++ otherwise ++ ")") fun assignment value =>
        ∃ l r, leftMeans assignment l ∧ rightMeans assignment r ∧
          if relation.Holds l r then chosenMeans assignment value
          else otherwiseMeans assignment value := by
  obtain ⟨leftWritten, l, leftSpells, leftReads, leftValues⟩ := first.reads
  obtain ⟨rightWritten, r, rightSpells, rightReads, rightValues⟩ := second.reads
  obtain ⟨chosenWritten, c, chosenSpells, chosenReads, chosenValues⟩ := third.reads
  obtain ⟨otherwiseWritten, o, otherwiseSpells, otherwiseReads, otherwiseValues⟩ := fourth.reads
  have name : Spells "if".toList ["if".toList] := .whole (by decide)
  have opens : Opens "if(".toList ["if".toList, ['(']] := separates_open.after name
  have mark : Spells relation.mark.toList [relation.mark.toList] :=
    .whole (by cases relation <;> decide)
  have space : Opens " ".toList [] := Opens.space
  have compared := ((opens.append_spells leftSpells).opens space rfl (by decide)).append_spells mark
  have rightSide := (compared.opens space rfl (by decide)).append_spells rightSpells
  have branches := separates_comma.between (separates_comma.between rightSide chosenSpells)
    otherwiseSpells
  refine ⟨_, _, ?_, .choice relation leftReads rightReads chosenReads otherwiseReads, ?_⟩
  · simp only [String.toList_append]
    have whole := (separates_close.after branches).spells
    simpa using whole
  · rintro assignment value ⟨x, y, leftHolds, rightHolds, taken⟩
    simp only [Phrase.value, leftValues _ _ leftHolds, rightValues _ _ rightHolds,
      Option.bind_eq_bind, Option.bind_some]
    split at taken
    · rename_i holds
      rw [if_pos holds, chosenValues _ _ taken]
    · rename_i fails
      rw [if_neg fails, otherwiseValues _ _ taken]

end Piece

/-! ### Numbers -/

section Numbers

variable {κ : Type} [Scalar κ] [Exact κ] [ScalarText κ] (vocabulary : Vocabulary)

/-- A number that is written as a numeral, and known from it. -/
structure Vocabulary.Gives (value : κ) : Prop where
  isNumeral : isNumeral (ScalarText.expression value).toList = true
  known : vocabulary.numeral (ScalarText.expression value).toList = some (Exact.real value)

/-- A number that is known from its text; a negative one is written as the opposite of another one. -/
def Vocabulary.Legible (value : κ) : Prop :=
  if Scalar.isNegative value then
    ScalarText.expression value = "-" ++ ScalarText.expression (-value) ∧ vocabulary.Gives (-value)
  else vocabulary.Gives value

variable {vocabulary}

theorem Piece.positive {value : κ} (legible : vocabulary.Legible value)
    (positive : Scalar.isNegative value = false) :
    Piece vocabulary .primary (ScalarText.expression value) fun _ other =>
      other = Exact.real value := by
  rw [Vocabulary.Legible, positive, if_neg Bool.false_ne_true] at legible
  exact .numeral legible.isNumeral legible.known

theorem Piece.number {value : κ} (legible : vocabulary.Legible value) :
    Piece vocabulary .product (ScalarText.expression value) fun _ other =>
      other = Exact.real value := by
  cases negative : Scalar.isNegative value with
  | false => exact (Piece.positive legible negative).toFactor.toProduct
  | true =>
      rw [Vocabulary.Legible, if_pos negative] at legible
      obtain ⟨written, gives⟩ := legible
      rw [written]
      refine (Piece.numeral gives.isNumeral gives.known).toFactor.toProduct.opposite.imp ?_
      rintro _ _ rfl
      exact (Exact.real_neg value).symm

end Numbers

/-! ### Places -/

/-- The level at which an operand is read that stands at a place with the given precedence. -/
def levelAt : Nat → Level
  | 0 => .sum
  | 1 => .sum
  | 2 => .product
  | 3 => .factor
  | _ => .primary

namespace Piece

variable {vocabulary : Vocabulary} {text : String} {meaning : Assignment → ℝ → Prop}

theorem at_zero {level : Level} (piece : Piece vocabulary level text meaning) :
    Piece vocabulary .sum text meaning := by
  cases level with
  | sum => exact piece
  | product => exact piece.toSum
  | factor => exact piece.toProduct.toSum
  | primary => exact piece.toFactor.toProduct.toSum

theorem loosen {own place : Nat} (le : place ≤ own)
    (piece : Piece vocabulary (levelAt own) text meaning) :
    Piece vocabulary (levelAt place) text meaning := by
  match place, own, le, piece with
  | 0, _, _, piece => exact piece.at_zero
  | 1, _, _, piece => exact piece.at_zero
  | 2, 2, _, piece => exact piece
  | 2, 3, _, piece => exact piece.toProduct
  | 2, _ + 4, _, piece => exact piece.toFactor.toProduct
  | 3, 3, _, piece => exact piece
  | 3, _ + 4, _, piece => exact piece.toFactor
  | _ + 4, _ + 4, _, piece => exact piece

theorem placed (own place : Nat) (piece : Piece vocabulary (levelAt own) text meaning) :
    Piece vocabulary (levelAt place) (if own < place then "(" ++ text ++ ")" else text) meaning := by
  split
  · have most : place ≤ place + 4 := Nat.le_add_right place 4
    exact Piece.loosen most piece.at_zero.enclosed
  · rename_i notLess
    exact piece.loosen (Nat.le_of_not_lt notLess)

end Piece

end Text

namespace Expr

open Text

variable {κ : Type} [Scalar κ]

/-- The expressions that are written in the text of an expression: its operands, the opposites of
terms behind a minus sign, the powers below the line, and the number above it. -/
inductive Writes : Expr κ → Expr κ → Prop where
  | self (expr : Expr κ) : Writes expr expr
  | child {expr operand part : Expr κ} (member : operand ∈ expr.children)
      (inside : Writes operand part) : Writes expr part
  | opposite {terms : List (Expr κ)} {term part : Expr κ} (member : term ∈ terms)
      (negative : Scalar.isNegative term.splitCoefficient.1 = true)
      (inside : Writes term.opposite part) : Writes (add terms) part
  | divisor {operands : List (Expr κ)} {factor divisor part : Expr κ} (member : factor ∈ operands)
      (below : factor.below? = some divisor) (inside : Writes divisor part) :
      Writes (mul operands) part
  | alone {operands : List (Expr κ)} (alone : (Fraction.ofFactors operands).numerator = []) :
      Writes (mul operands) (num (Fraction.ofFactors operands).coefficient)

section Values

variable [Exact κ] {assignment : Assignment}

theorem takes_opposite {term : Expr κ} {value : ℝ} (takes : term.Takes assignment value) :
    term.opposite.Takes assignment (-value) := by
  obtain ⟨rest, rests, rfl⟩ := takes_splitCoefficient takes
  rw [← neg_mul, ← Exact.real_neg]
  exact takes_product (multipliesTo_cons.mpr
    ⟨_, rest, takes_number _, multipliesTo_singleton.mpr rests, rfl⟩)

theorem sumsTo_concat {before : List (Expr κ)} {term : Expr κ} {value : ℝ} :
    SumsTo assignment (before ++ [term]) value ↔
      ∃ x y, SumsTo assignment before x ∧ term.Takes assignment y ∧ x + y = value := by
  constructor
  · rintro ⟨defined, rfl⟩
    obtain ⟨first, last⟩ := List.forall_mem_append.mp defined
    exact ⟨_, _, ⟨first, rfl⟩, (last term List.mem_cons_self).takes, by simp⟩
  · rintro ⟨x, y, sums, takes, rfl⟩
    exact sums.append (sumsTo_singleton.mpr takes)

/-- A power with a negative exponent is the reciprocal of the one that is written below the line. -/
theorem takes_below {factor divisor : Expr κ} (below : factor.below? = some divisor) {value : ℝ}
    (takes : factor.Takes assignment value) :
    ∃ x, divisor.Takes assignment x ∧ x ≠ 0 ∧ value = x⁻¹ := by
  unfold below? at below
  split at below
  · rename_i base exponent
    split at below
    · rename_i negative
      cases below
      obtain ⟨number, numeric, isNegative⟩ := (Option.any_eq_true _ _).mp negative
      obtain rfl := asNumber?_eq_some.mp numeric
      rw [isNegative_iff] at isNegative
      obtain ⟨b, e, baseTakes, exponentTakes, power⟩ := takes_pow.mp takes
      rw [takes_num] at exponentTakes
      subst exponentTakes
      have defined := (realPower_eq_some.mp power).1
      have inverse : realPower b (-Exact.real number) = some (b ^ (-Exact.real number)) := by
        refine realPower_eq_some.mpr ⟨⟨fun _ => by linarith, fun below => ?_⟩, rfl⟩
        obtain ⟨whole, same⟩ := defined.2 below
        exact ⟨-whole, by rw [same, Int.cast_neg]⟩
      have unit := realPower_add power inverse
      rw [add_neg_cancel, realPower_zero, Option.some.injEq] at unit
      have nonzero := right_ne_zero_of_mul_eq_one unit.symm
      exact ⟨_, takes_power baseTakes (takes_negate ((takes_num number _).mpr rfl)) inverse, nonzero,
        eq_inv_of_mul_eq_one_left unit.symm⟩
    · cases below
  · cases below

theorem takes_fraction {operands : List (Expr κ)} {value : ℝ}
    (multiplies : MultipliesTo assignment operands value) :
    ∃ x y, MultipliesTo assignment (Fraction.ofFactors operands).numerator x ∧
      MultipliesTo assignment (Fraction.ofFactors operands).denominator y ∧ y ≠ 0 ∧
      ((numbersIn operands).map Exact.real).prod * x / y = value := by
  induction operands generalizing value with
  | nil => exact ⟨1, 1, by simp [Fraction.ofFactors, symbolicIn], by simp [Fraction.ofFactors],
      one_ne_zero, by simpa [numbersIn] using multiplies.2⟩
  | cons head tail ih =>
      obtain ⟨z, rest, headTakes, later, rfl⟩ := multipliesTo_cons.mp multiplies
      obtain ⟨x, y, above, under, nonzero, rfl⟩ := ih later
      cases numeric : head.asNumber? with
      | some number =>
          obtain rfl := asNumber?_eq_some.mp numeric
          rw [takes_num] at headTakes
          refine ⟨x, y, above, under, nonzero, ?_⟩
          rw [numbersIn_num, List.map_cons, List.prod_cons, headTakes]
          ring
      | none =>
          have noNumber : numbersIn (head :: tail) = numbersIn tail :=
            List.filterMap_cons_none numeric
          have symbol : symbolicIn (head :: tail) = head :: symbolicIn tail :=
            List.filter_cons_of_pos (by rw [numeric]; rfl)
          rw [noNumber]
          cases below : head.below? with
          | some divisor =>
              obtain ⟨w, divisorTakes, divisorNonzero, rfl⟩ := takes_below below headTakes
              refine ⟨x, w * y, ?_, ?_, mul_ne_zero divisorNonzero nonzero, by field_simp⟩
              · simpa [Fraction.ofFactors, symbol, below] using above
              · have whole := multipliesTo_cons.mpr ⟨w, y, divisorTakes, under, rfl⟩
                simpa [Fraction.ofFactors, below] using whole
          | none =>
              refine ⟨z * x, y, ?_, ?_, nonzero, by ring⟩
              · have whole := multipliesTo_cons.mpr ⟨z, x, headTakes, above, rfl⟩
                simpa [Fraction.ofFactors, symbol, below] using whole
              · simpa [Fraction.ofFactors, below] using under

theorem real_coefficient {operands : List (Expr κ)} (single : (numbersIn operands).length ≤ 1) :
    Exact.real (Fraction.ofFactors operands).coefficient =
      ((numbersIn operands).map Exact.real).prod := by
  unfold Fraction.ofFactors
  match numbersIn operands, single with
  | [], _ => simp [Exact.real_one]
  | [number], _ => simp

end Values

section Written

variable [Exact κ] [ScalarText κ] {vocabulary : Vocabulary}

omit [ScalarText κ] in
theorem coefficient_mem {operands : List (Expr κ)}
    (notOne : Scalar.isOne (Fraction.ofFactors operands).coefficient = false) :
    num (Fraction.ofFactors operands).coefficient ∈ operands := by
  unfold Fraction.ofFactors at notOne ⊢
  cases last : (numbersIn operands).getLast? with
  | none =>
      rw [last, Option.getD_none, unit_isOne] at notOne
      cases notOne
  | some number => exact mem_numbersIn.mp (List.mem_of_getLast? last)

/-- All that is written in the text of the expression is known. -/
structure Covered (vocabulary : Vocabulary) (expr : Expr κ) : Prop where
  numbers : ∀ value, expr.Writes (num value) → vocabulary.Legible value
  atoms : ∀ symbol ∈ expr.occurrences, symbol ∈ vocabulary.atoms

namespace Covered

theorem child {expr operand : Expr κ} (covered : Covered vocabulary expr)
    (member : operand ∈ expr.children) : Covered vocabulary operand :=
  ⟨fun value inside => covered.numbers value (.child member inside),
    fun symbol occurs => covered.atoms symbol (occurrences_of_child member occurs)⟩

theorem opposite {terms : List (Expr κ)} {term : Expr κ} (covered : Covered vocabulary (add terms))
    (member : term ∈ terms) (negative : Scalar.isNegative term.splitCoefficient.1 = true) :
    Covered vocabulary term.opposite := by
  refine ⟨fun value inside => covered.numbers value (.opposite member negative inside),
    fun symbol occurs => ?_⟩
  have least (wanted : Atom → Bool) : uses wanted term.opposite ≤ usesIn wanted [term] := by
    refine (uses_product_le wanted _).trans_eq ?_
    rw [usesIn_cons, usesIn_cons, usesIn_cons, uses_number, (uses_weight wanted).splitCoefficient]
    exact Nat.zero_add _
  obtain ⟨_, among, inside⟩ := mem_occurrences_of_uses_le least occurs
  rw [List.mem_singleton.mp among] at inside
  exact covered.atoms symbol (occurrences_of_child member inside)

theorem divisor {operands : List (Expr κ)} {factor divisor : Expr κ}
    (covered : Covered vocabulary (mul operands)) (member : factor ∈ operands)
    (below : factor.below? = some divisor) : Covered vocabulary divisor := by
  refine ⟨fun value inside => covered.numbers value (.divisor member below inside),
    fun symbol occurs => ?_⟩
  have least (wanted : Atom → Bool) : uses wanted divisor ≤ usesIn wanted [factor] := by
    unfold below? at below
    split at below
    · rename_i base exponent
      split at below
      · cases below
        have whole := uses_power_le wanted base exponent.negate
        have negated : uses wanted exponent.negate ≤ usesIn wanted [number (-1), exponent] :=
          uses_product_le wanted _
        simp only [usesIn_cons, uses_number, usesIn_nil, uses_pow] at negated ⊢
        omega
      · cases below
    · cases below
  obtain ⟨_, among, inside⟩ := mem_occurrences_of_uses_le least occurs
  rw [List.mem_singleton.mp among] at inside
  exact covered.atoms symbol (occurrences_of_child member inside)

end Covered

/-- The rounds suffice to write any expression of less extent at any place. -/
def Legibly (vocabulary : Vocabulary) (rounds : Nat) : Prop :=
  ∀ (place : Nat) (expr : Expr κ), expr.WellFormed → expr.extent < rounds →
    Covered vocabulary expr → Piece vocabulary (levelAt place) (textWith rounds place expr)
      fun assignment value => expr.Takes assignment value

def addTerm (rounds : Nat) (written : String) (term : Expr κ) : String :=
  if Scalar.isNegative term.splitCoefficient.1 then
    written ++ " - " ++ textWith rounds Precedence.product term.opposite
  else written ++ " + " ++ textWith rounds Precedence.product term

theorem piece_addTerm {rounds : Nat} {written : String} {before : List (Expr κ)} {term : Expr κ}
    (earlier : Piece vocabulary .sum written fun assignment value => SumsTo assignment before value)
    (plain : Piece vocabulary .product (textWith rounds Precedence.product term)
      fun assignment value => term.Takes assignment value)
    (turned : Scalar.isNegative term.splitCoefficient.1 = true →
      Piece vocabulary .product (textWith rounds Precedence.product term.opposite)
        fun assignment value => term.opposite.Takes assignment value) :
    Piece vocabulary .sum (addTerm rounds written term) fun assignment value =>
      SumsTo assignment (before ++ [term]) value := by
  unfold addTerm
  split
  · rename_i negative
    have separates : Separates " - " ['-'] := .of_marks rfl (by decide) (by decide) rfl
    have marked : Level.sum.operation? ['-'] = some .minus := rfl
    refine (Piece.joined separates marked earlier (turned negative)).imp
      fun assignment value sums => ?_
    obtain ⟨x, y, first, last, rfl⟩ := sumsTo_concat.mp sums
    exact ⟨x, -y, first, takes_opposite last, congrArg some (sub_neg_eq_add x y)⟩
  · have separates : Separates " + " ['+'] := .of_marks rfl (by decide) (by decide) rfl
    have marked : Level.sum.operation? ['+'] = some .plus := rfl
    refine (Piece.joined separates marked earlier plain).imp
      fun assignment value sums => ?_
    obtain ⟨x, y, first, last, rfl⟩ := sumsTo_concat.mp sums
    exact ⟨x, y, first, last, rfl⟩

theorem piece_terms {rounds : Nat} {rest : List (Expr κ)}
    (each : ∀ term ∈ rest, ∀ (written : String) (before : List (Expr κ)),
      (Piece vocabulary .sum written fun assignment value => SumsTo assignment before value) →
        Piece vocabulary .sum (addTerm rounds written term) fun assignment value =>
          SumsTo assignment (before ++ [term]) value)
    {written : String} {before : List (Expr κ)}
    (earlier : Piece vocabulary .sum written fun assignment value => SumsTo assignment before value) :
    Piece vocabulary .sum (rest.foldl (addTerm rounds) written) fun assignment value =>
      SumsTo assignment (before ++ rest) value := by
  induction rest generalizing written before with
  | nil => simpa using earlier
  | cons head tail ih =>
      obtain ⟨here, later⟩ := List.forall_mem_cons.mp each
      rw [List.append_cons]
      exact ih later (here written before earlier)

omit [ScalarText κ] in
theorem piece_factors {write : Expr κ → String} {factors : List (Expr κ)} (present : factors ≠ [])
    (each : ∀ factor ∈ factors, Piece vocabulary .product (write factor)
      fun assignment value => factor.Takes assignment value) :
    Piece vocabulary .product (joined "*" (factors.map write)) fun assignment value =>
      MultipliesTo assignment factors value := by
  induction factors with
  | nil => exact absurd rfl present
  | cons head tail ih =>
      obtain ⟨here, later⟩ := List.forall_mem_cons.mp each
      cases tail with
      | nil => exact here.imp fun assignment value => multipliesTo_singleton.mp
      | cons next rest =>
          have split : joined "*" ((head :: next :: rest).map write) =
              write head ++ "*" ++ joined "*" ((next :: rest).map write) := by
            refine String.toList_inj.mp ?_
            simp [joined, String.toList_intercalate]
          rw [split]
          exact (here.times (ih (by simp) later)).imp
            fun assignment value => multipliesTo_cons.mp

theorem piece_numerator {coefficient : κ} {upper : String} {numerator : List (Expr κ)}
    (empty : numerator = [] → upper = "") (legible : Scalar.isOne coefficient = false ∨ numerator = [] →
      vocabulary.Legible coefficient)
    (above : numerator ≠ [] → Piece vocabulary .product upper fun assignment value =>
      MultipliesTo assignment numerator value) :
    Piece vocabulary .product (coefficientText coefficient numerator.isEmpty ++ upper)
      fun assignment value => ∃ x, MultipliesTo assignment numerator x ∧
        Exact.real coefficient * x = value := by
  unfold coefficientText
  cases numerator with
  | nil =>
      have written : ScalarText.expression coefficient ++ "" ++ "" =
          ScalarText.expression coefficient := by simp
      rw [empty rfl, List.isEmpty_nil, Bool.not_true, Bool.and_false, Bool.or_true,
        if_neg Bool.false_ne_true, if_pos rfl, if_pos rfl, written]
      refine (Piece.number (legible (Or.inr rfl))).imp fun assignment value means => ?_
      obtain ⟨x, none, rfl⟩ := means
      rw [multipliesTo_nil.mp none, mul_one]
  | cons head tail =>
      have above := above (List.cons_ne_nil _ _)
      rw [List.isEmpty_cons, Bool.not_false, Bool.and_true, Bool.or_false]
      cases minus : Scalar.isEqual coefficient (-1) with
      | true =>
          rw [if_pos rfl]
          refine above.opposite.imp fun assignment value means => ?_
          obtain ⟨x, multiplies, rfl⟩ := means
          have real : Exact.real coefficient = -1 := by
            rw [(Exact.isEqual_iff coefficient (-1)).mp minus, Exact.real_neg, Exact.real_one]
          rwa [real, neg_one_mul, neg_neg]
      | false =>
          rw [if_neg Bool.false_ne_true]
          cases isOne : Scalar.isOne coefficient with
          | true =>
              have written : "" ++ upper = upper := by simp
              rw [Bool.not_true, if_neg Bool.false_ne_true, written]
              refine above.imp fun assignment value means => ?_
              obtain ⟨x, multiplies, rfl⟩ := means
              rwa [(isOne_iff coefficient).mp isOne, one_mul]
          | false =>
              rw [Bool.not_false, if_pos rfl, if_neg Bool.false_ne_true]
              refine ((Piece.number (legible (Or.inl isOne))).times above).imp
                fun assignment value means => ?_
              obtain ⟨x, multiplies, rfl⟩ := means
              exact ⟨_, x, rfl, multiplies, rfl⟩

def lowerText (rounds : Nat) : List (Expr κ) → String
  | [] => ""
  | [factor] => "/" ++ textWith rounds Precedence.power factor
  | several => "/(" ++ joined "*" (several.map (textWith rounds Precedence.product)) ++ ")"

theorem piece_quotient {rounds : Nat} {head : String} {dividend : Assignment → ℝ → Prop}
    (numerator : Piece vocabulary .product head dividend) (denominator : List (Expr κ))
    (each : ∀ factor ∈ denominator, ∀ place, Piece vocabulary (levelAt place)
      (textWith rounds place factor) fun assignment value => factor.Takes assignment value) :
    Piece vocabulary .product (head ++ lowerText rounds denominator) fun assignment value =>
      ∃ x y, dividend assignment x ∧ MultipliesTo assignment denominator y ∧ y ≠ 0 ∧
        x / y = value := by
  have separates : Separates "/" ['/'] := .of_marks rfl (by decide) (by decide) rfl
  have marked : Level.product.operation? ['/'] = some .divided := rfl
  match denominator with
  | [] =>
      have written : head ++ lowerText (κ := κ) rounds [] = head := by simp [lowerText]
      rw [written]
      refine numerator.imp fun assignment value means => ?_
      obtain ⟨x, y, holds, none, _, rfl⟩ := means
      rwa [multipliesTo_nil.mp none, div_one]
  | [factor] =>
      have written : head ++ lowerText rounds [factor] =
          head ++ "/" ++ textWith rounds Precedence.power factor := by
        rw [lowerText, String.append_assoc]
      have lower := each factor List.mem_cons_self Precedence.power
      rw [written]
      refine (Piece.joined separates marked numerator lower).imp fun assignment value means => ?_
      obtain ⟨x, y, holds, takes, nonzero, rfl⟩ := means
      exact ⟨x, y, holds, multipliesTo_singleton.mp takes, if_neg nonzero⟩
  | first :: second :: rest =>
      have written : head ++ lowerText rounds (first :: second :: rest) = head ++ "/" ++ ("(" ++
          joined "*" ((first :: second :: rest).map (textWith rounds Precedence.product)) ++ ")") := by
        have marks : "/(" = "/" ++ "(" := rfl
        simp only [lowerText, marks, String.append_assoc]
      have lower := (piece_factors (List.cons_ne_nil _ _) fun factor member =>
        each factor member Precedence.product).toSum.enclosed.toFactor
      rw [written]
      refine (Piece.joined separates marked numerator lower).imp fun assignment value means => ?_
      obtain ⟨x, y, holds, multiplies, nonzero, rfl⟩ := means
      exact ⟨x, y, holds, multiplies, if_neg nonzero⟩

/-! ### Nodes -/

theorem piece_num {value : κ} (legible : vocabulary.Legible value) :
    Piece vocabulary (levelAt (num value).precedence) (ScalarText.expression value)
      fun assignment other => (num value).Takes assignment other := by
  have means (assignment : Assignment) (other : ℝ) (takes : (num value).Takes assignment other) :
      other = Exact.real value := ((takes_num value other).mp takes).symm
  have own : (num value).precedence =
      if Scalar.isNegative value then Precedence.sum else Precedence.leaf := rfl
  rw [own]
  cases negative : Scalar.isNegative value with
  | true => exact (Piece.number legible).toSum.imp means
  | false => exact (Piece.positive legible negative).imp means

variable {rounds : Nat} (legibly : Legibly (κ := κ) vocabulary rounds)

include legibly

theorem piece_add {first : Expr κ} {rest : List (Expr κ)} (formed : (add (first :: rest)).WellFormed)
    (enough : (add (first :: rest)).extent < rounds + 1)
    (covered : Covered vocabulary (add (first :: rest))) :
    Piece vocabulary .sum (rest.foldl (addTerm rounds) (textWith rounds Precedence.sum first))
      fun assignment value => (add (first :: rest)).Takes assignment value := by
  have term (place : Nat) : ∀ term ∈ first :: rest,
      Piece vocabulary (levelAt place) (textWith rounds place term)
        fun assignment value => term.Takes assignment value := fun term member =>
    legibly place term (formed.child member)
      ((formed.extent_lt member).trans_le (Nat.le_of_lt_succ enough)) (covered.child member)
  have start : Piece vocabulary .sum (textWith rounds Precedence.sum first)
      fun assignment value => SumsTo assignment [first] value :=
    (term Precedence.sum first List.mem_cons_self).imp fun assignment value => sumsTo_singleton.mp
  refine (piece_terms (fun next member written before earlier => ?_) start).imp
    fun assignment value => takes_add.mp
  have among : next ∈ first :: rest := List.mem_cons_of_mem first member
  refine piece_addTerm earlier (term Precedence.product next among) fun negative => ?_
  exact legibly Precedence.product next.opposite (formed.child among).opposite
    ((extent_opposite_le (formed.child among) negative).trans_lt
      ((formed.extent_lt among).trans_le (Nat.le_of_lt_succ enough)))
    (covered.opposite among negative)

theorem piece_mul {operands : List (Expr κ)} (formed : (mul operands).WellFormed)
    (enough : (mul operands).extent < rounds + 1) (covered : Covered vocabulary (mul operands)) :
    Piece vocabulary .product
      (coefficientText (Fraction.ofFactors operands).coefficient
          (Fraction.ofFactors operands).numerator.isEmpty ++
        joined "*" ((Fraction.ofFactors operands).numerator.map (textWith rounds Precedence.product)) ++
        lowerText rounds (Fraction.ofFactors operands).denominator)
      fun assignment value => (mul operands).Takes assignment value := by
  have above : ∀ factor ∈ (Fraction.ofFactors operands).numerator,
      Piece vocabulary .product (textWith rounds Precedence.product factor)
        fun assignment value => factor.Takes assignment value := by
    intro factor member
    have among : factor ∈ operands := (List.mem_filter.mp (List.mem_filter.mp member).1).1
    exact legibly Precedence.product factor (formed.child among)
      ((formed.extent_lt among).trans_le (Nat.le_of_lt_succ enough)) (covered.child among)
  have under : ∀ divisor ∈ (Fraction.ofFactors operands).denominator, ∀ place,
      Piece vocabulary (levelAt place) (textWith rounds place divisor)
        fun assignment value => divisor.Takes assignment value := by
    intro divisor member place
    obtain ⟨factor, among, below⟩ := List.mem_filterMap.mp member
    obtain ⟨divisorFormed, least⟩ := bounded_below (formed.child among) below
    exact legibly place divisor divisorFormed
      (least.trans_lt ((formed.extent_lt among).trans_le (Nat.le_of_lt_succ enough)))
      (covered.divisor among below)
  have number : Scalar.isOne (Fraction.ofFactors operands).coefficient = false ∨
      (Fraction.ofFactors operands).numerator = [] →
      vocabulary.Legible (Fraction.ofFactors operands).coefficient := by
    rintro (notOne | none)
    · exact covered.numbers _ (.child (coefficient_mem notOne) (.self _))
    · exact covered.numbers _ (.alone none)
  refine (piece_quotient (piece_numerator (fun none => ?_) number
    (fun present => piece_factors present above)) _ under).imp fun assignment value takes => ?_
  · rw [none]
    rfl
  · obtain ⟨x, y, multiplies, divides, nonzero, rfl⟩ := takes_fraction (takes_mul.mp takes)
    exact ⟨_, y, ⟨x, multiplies, by rw [real_coefficient formed.several.2]⟩, divides, nonzero, rfl⟩

omit legibly in
theorem legibly_zero : Legibly (κ := κ) vocabulary 0 := fun _ _ _ enough => nomatch enough

theorem legibly_succ : Legibly (κ := κ) vocabulary (rounds + 1) := by
  intro place expr formed enough covered
  have operand (place : Nat) (operand : Expr κ) (member : operand ∈ expr.children) :
      Piece vocabulary (levelAt place) (textWith rounds place operand)
        fun assignment value => operand.Takes assignment value :=
    legibly place operand (formed.child member)
      ((formed.extent_lt member).trans_le (Nat.le_of_lt_succ enough)) (covered.child member)
  cases expr with
  | num value => exact Piece.placed _ place (piece_num (covered.numbers value (.self _)))
  | atom symbol =>
      have piece := Piece.entry (covered.atoms symbol List.mem_cons_self)
      exact Piece.placed Precedence.leaf place
        (piece.imp fun assignment value => (takes_atom symbol value).mp)
  | add terms =>
      cases terms with
      | nil => exact absurd formed.several (Nat.not_succ_le_zero 1)
      | cons first rest =>
          exact Piece.placed Precedence.sum place (piece_add legibly formed enough covered)
  | mul operands =>
      exact Piece.placed Precedence.product place (piece_mul legibly formed enough covered)
  | pow base exponent =>
      have power := (operand Precedence.leaf base List.mem_cons_self).power
        (operand Precedence.leaf exponent (List.mem_cons_of_mem _ List.mem_cons_self)).toFactor
      exact Piece.placed Precedence.power place
        (power.imp fun assignment value => takes_pow.mp)
  | call function argument =>
      have call := (operand Precedence.none argument List.mem_cons_self).call function
      exact Piece.placed Precedence.leaf place
        (call.imp fun assignment value => takes_call.mp)
  | angle y x =>
      have angle := (operand Precedence.none y List.mem_cons_self).angle
        (operand Precedence.none x (List.mem_cons_of_mem _ List.mem_cons_self))
      exact Piece.placed Precedence.leaf place
        (angle.imp fun assignment value => takes_angle.mp)
  | cond relation left right chosen otherwise =>
      have choice := Piece.choice relation (operand Precedence.none left (by simp [children]))
        (operand Precedence.none right (by simp [children]))
        (operand Precedence.none chosen (by simp [children]))
        (operand Precedence.none otherwise (by simp [children]))
      refine Piece.placed Precedence.leaf place
        (choice.imp fun assignment value takes => ?_)
      obtain ⟨l, r, leftTakes, rightTakes, taken⟩ := takes_cond.mp takes
      refine ⟨l, r, leftTakes, rightTakes, ?_⟩
      split <;> simp_all

omit legibly in
theorem legibly_all (rounds : Nat) : Legibly (κ := κ) vocabulary rounds := by
  induction rounds with
  | zero => exact legibly_zero
  | succ rounds ih => exact legibly_succ ih

omit legibly in
theorem piece_text {expr : Expr κ} (formed : expr.WellFormed) (covered : Covered vocabulary expr) :
    Piece vocabulary .sum expr.text fun assignment value => expr.Takes assignment value :=
  legibly_all _ Precedence.none expr formed (Nat.lt_succ_self _) covered

end Written

/-! ### A power of an entry -/

namespace Sample

def joint : Symbol := ⟨1, "q", .vector 2, .real⟩

noncomputable local instance wholeText : ScalarText RealNumber where
  expression number := toString ⌊number.value⌋
  full number := toString ⌊number.value⌋
  scientific number := toString ⌊number.value⌋

noncomputable def words : Vocabulary where
  symbols := [joint]
  named := by decide
  distinct := by decide
  numeral lexeme := some (Nat.ofDigitChars 10 lexeme 0 : ℕ)

noncomputable def inverseSquare : Expr RealNumber :=
  power (atom (joint.atomAt 1 0)) (number ⟨-(1 + 1)⟩)

theorem inverseSquare_eq : inverseSquare = pow (atom (.entry joint 1 0)) (num ⟨-2⟩) := by
  have nonzero : Scalar.isZero (⟨-2⟩ : RealNumber) = false := by
    rw [← Bool.not_eq_true, isZero_iff]
    exact (by norm_num : (-2 : ℝ) ≠ 0)
  have notOne : Scalar.isOne (⟨-2⟩ : RealNumber) = false := by
    rw [← Bool.not_eq_true, isOne_iff]
    exact (by norm_num : (-2 : ℝ) ≠ 1)
  have settled : SettledPower (atom (.entry joint 1 0)) (num (⟨-2⟩ : RealNumber)) := by
    refine ⟨fun passes => ?_, rfl, nonzero, notOne, rfl⟩
    rcases passes with same | same <;> cases same
  rw [inverseSquare, one_add_one_eq_two, number_of_nonzero nonzero]
  exact powerWith_settled _ settled

theorem negative_minusTwo : Scalar.isNegative (⟨-2⟩ : RealNumber) = true :=
  (isNegative_iff _).mpr (by norm_num : (-2 : ℝ) < 0)

theorem expression_minusTwo : ScalarText.expression (⟨-2⟩ : RealNumber) = "-2" := by
  have whole : ⌊(-2 : ℝ)⌋ = -2 := by exact_mod_cast Int.floor_intCast (R := ℝ) (-2)
  show toString ⌊(-2 : ℝ)⌋ = "-2"
  rw [whole]
  rfl

theorem expression_two : ScalarText.expression (-⟨-2⟩ : RealNumber) = "2" := by
  have whole : ⌊-(-2 : ℝ)⌋ = 2 := by norm_num
  show toString ⌊-(-2 : ℝ)⌋ = "2"
  rw [whole]
  rfl

theorem legible_minusTwo : words.Legible (⟨-2⟩ : RealNumber) := by
  have known : words.numeral "2".toList = some (Exact.real (-⟨-2⟩ : RealNumber)) := by
    rw [Exact.real_neg]
    show some (((Nat.ofDigitChars 10 "2".toList 0 : ℕ) : ℝ)) = some (-(-2))
    have two : Nat.ofDigitChars 10 "2".toList 0 = 2 := by decide
    rw [two]
    norm_num
  rw [Vocabulary.Legible, if_pos negative_minusTwo, expression_minusTwo]
  refine ⟨by rw [expression_two]; rfl, ?_, ?_⟩
  · rw [expression_two]
    decide
  · rw [expression_two]
    exact known

theorem inverseSquare_text : inverseSquare.text = "q[1]^(-2)" := by
  rw [inverseSquare_eq, text, extent_pow, extent_atom, extent_num]
  have entry : textWith 2 Precedence.leaf (atom (.entry joint 1 0) : Expr RealNumber) = "q[1]" := by
    decide
  have exponent : textWith 2 Precedence.leaf (num (⟨-2⟩ : RealNumber)) = "(-2)" := by
    have loose : (num (⟨-2⟩ : RealNumber)).precedence = Precedence.sum := if_pos negative_minusTwo
    rw [textWith, loose, expression_minusTwo]
    rfl
  show textWith 2 Precedence.leaf (atom (.entry joint 1 0) : Expr RealNumber) ++ "^" ++
    textWith 2 Precedence.leaf (num (⟨-2⟩ : RealNumber)) = _
  rw [entry, exponent]
  rfl

theorem inverseSquare_covered : Covered words inverseSquare := by
  rw [inverseSquare_eq]
  refine ⟨fun value written => ?_, by decide⟩
  cases written with
  | child member inside =>
      simp only [children, List.mem_cons, List.not_mem_nil, or_false] at member
      obtain rfl | rfl := member
      · cases inside with
        | child member _ => cases member
      · cases inside with
        | self _ => exact legible_minusTwo
        | child member _ => cases member

theorem inverseSquare_takes : inverseSquare.Takes (fun _ => some 3) (1 / 9) := by
  rw [inverseSquare_eq, takes_pow]
  refine ⟨3, -2, (takes_atom _ _).mpr rfl, (takes_num _ _).mpr rfl, ?_⟩
  have whole : realPower 3 ((-2 : ℤ) : ℝ) = some (1 / 9) :=
    realPower_whole.mpr ⟨fun none => absurd none three_ne_zero, by norm_num⟩
  simpa using whole

theorem inverseSquare_built : Obtained (fun _ => True) inverseSquare := by
  let square : Call RealNumber := .power (atom (joint.atomAt 1 0)) (number ⟨-(1 + 1)⟩)
  refine Obtained.call square (fun operand member => ?_) trivial
  simp only [square, Call.operands, List.mem_cons, List.not_mem_nil, or_false] at member
  obtain rfl | rfl := member
  · exact .atom _
  · exact .number _

end Sample

end Expr

end Mechanism
