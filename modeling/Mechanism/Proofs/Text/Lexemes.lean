import Mathlib.Data.List.Basic
import Mechanism.Symbol

/-!
Texts of formulas as sequences of lexemes: names, numerals and marks. A name or a numeral goes on as
long as it can, and spaces stand between lexemes only. What a text that is put together of pieces is
divided into follows from the pieces, if each piece ends where the next one breaks it off.
-/

namespace Mechanism.Text

abbrev Lexeme := List Char

def breaks : List Char := [' ', '(', ')', '[', ']', ',', '+', '*', '/', '^', '<', '>']

def isLetter (character : Char) : Bool :=
  !character.isDigit && !(['-', '=', '.'] ++ breaks).contains character

/-- A name goes on with letters and digits, and a numeral with digits, a point and an exponent. -/
def continues (lexeme : Lexeme) (character : Char) : Bool :=
  match lexeme with
  | [] => false
  | first :: _ =>
    if isLetter first then isLetter character || character.isDigit
    else if first.isDigit then
      character.isDigit || character == '.' || character == 'e' ||
        (character == '-' && lexeme.getLast? == some 'e')
    else lexeme == ['='] && character == '='

def finish (lexeme : Lexeme) (later : List Lexeme) : List Lexeme :=
  if lexeme.isEmpty then later else lexeme :: later

/-- The lexemes of a text of which the first one has been begun. -/
def scan : Lexeme → List Char → List Lexeme
  | lexeme, [] => finish lexeme []
  | lexeme, character :: rest =>
    if continues lexeme character then scan (lexeme ++ [character]) rest
    else finish lexeme (if character == ' ' then scan [] rest else scan [character] rest)

def lexemes (text : String) : List Lexeme := scan [] text.toList

example : lexemes "a*b[1] - 2.5e-1" =
    [['a'], ['*'], ['b'], ['['], ['1'], [']'], ['-'], ['2', '.', '5', 'e', '-', '1']] := by decide

def Broken (rest : List Char) : Prop := ∀ character ∈ rest.head?, character ∈ breaks

/-- The text is divided into the lexemes, if it is broken off behind them. -/
def Spells (text : List Char) (written : List Lexeme) : Prop :=
  ∀ rest, Broken rest → scan [] (text ++ rest) = written ++ scan [] rest

def Opens (text : List Char) (written : List Lexeme) : Prop :=
  ∀ rest, scan [] (text ++ rest) = written ++ scan [] rest

theorem continues_break {character : Char} (isBreak : character ∈ breaks) (lexeme : Lexeme) :
    continues lexeme character = false := by
  have noLetter : isLetter character = false := by
    simp [isLetter, isBreak]
  have all : breaks.all (fun mark => !(mark.isDigit || mark == '.' || mark == 'e' || mark == '-' ||
      mark == '=')) = true := by decide
  have others := List.all_eq_true.mp all character isBreak
  simp only [Bool.not_eq_true', Bool.or_eq_false_iff] at others
  obtain ⟨⟨⟨⟨digit, point⟩, exponent⟩, minus⟩, equal⟩ := others
  unfold continues
  split
  · rfl
  · simp [noLetter, digit, point, exponent, minus, equal]

theorem scan_broken (lexeme : Lexeme) {rest : List Char} (broken : Broken rest) :
    scan lexeme rest = finish lexeme (scan [] rest) := by
  cases rest with
  | nil => rfl
  | cons character rest =>
      rw [scan, continues_break (broken character rfl), scan]
      rfl

namespace Spells

variable {text more : List Char} {written further : List Lexeme}

theorem opens (spells : Spells text written) (opens : Opens more further) {first : Char}
    (breaksOff : more.head? = some first) (isBreak : first ∈ breaks) :
    Opens (text ++ more) (written ++ further) := by
  intro rest
  have broken : Broken (more ++ rest) := by
    intro character head
    rw [List.head?_append, breaksOff] at head
    cases head
    exact isBreak
  rw [List.append_assoc, spells _ broken, opens, List.append_assoc]

end Spells

namespace Opens

variable {text more : List Char} {written further : List Lexeme}

theorem spells (opens : Opens text written) : Spells text written := fun rest _ => opens rest

theorem append (opens : Opens text written) (later : Opens more further) :
    Opens (text ++ more) (written ++ further) := by
  intro rest
  rw [List.append_assoc, opens, later, List.append_assoc]

theorem append_spells (opens : Opens text written) (later : Spells more further) :
    Spells (text ++ more) (written ++ further) := by
  intro rest broken
  rw [List.append_assoc, opens, later rest broken, List.append_assoc]

theorem space : Opens [' '] [] := fun _ => rfl

theorem mark {character : Char} (noSpace : character ≠ ' ')
    (final : ∀ next, continues [character] next = false) :
    Opens [character] [[character]] := by
  intro rest
  have alone : scan [character] rest = [character] :: scan [] rest := by
    cases rest with
    | nil => rfl
    | cons next rest =>
        rw [scan, final next, scan]
        rfl
  have begun : scan [] (character :: rest) = scan [character] rest := by
    rw [scan]
    simp [continues, finish, noSpace]
  exact begun.trans alone

end Opens

theorem Opens.marks {text : List Char} (marks : text.all ('-' :: breaks).contains = true) :
    Opens text ((text.filter (· != ' ')).map fun character => [character]) := by
  induction text with
  | nil => exact fun _ => rfl
  | cons character text ih =>
      obtain ⟨isMark, later⟩ := Bool.and_eq_true_iff.mp marks
      rw [List.contains_iff_mem] at isMark
      by_cases isSpace : character = ' '
      · subst isSpace
        exact Opens.space.append (ih later)
      · have final (next : Char) : continues [character] next = false := by
          have all : ('-' :: breaks).all (fun mark => !(isLetter mark || mark.isDigit ||
              [mark] == ['='])) = true := by decide
          have alone := List.all_eq_true.mp all character isMark
          simp only [Bool.not_eq_true', Bool.or_eq_false_iff, and_assoc] at alone
          simp [continues, alone]
        have whole := (Opens.mark isSpace final).append (ih later)
        simpa [List.filter_cons, isSpace] using whole

def joins : Lexeme → List Char → Bool
  | _, [] => true
  | lexeme, character :: rest =>
    continues lexeme character && joins (lexeme ++ [character]) rest

def isWhole : Lexeme → Bool
  | [] => false
  | first :: rest => first != ' ' && joins [first] rest

def isName (lexeme : Lexeme) : Bool := isWhole lexeme && lexeme.head?.any isLetter

def isNumeral (lexeme : Lexeme) : Bool := isWhole lexeme && lexeme.head?.any Char.isDigit

theorem scan_joins {lexeme : Lexeme} {more : List Char} (joined : joins lexeme more = true)
    (rest : List Char) : scan lexeme (more ++ rest) = scan (lexeme ++ more) rest := by
  induction more generalizing lexeme with
  | nil => rw [List.nil_append, List.append_nil]
  | cons character more ih =>
      obtain ⟨here, later⟩ := Bool.and_eq_true_iff.mp joined
      rw [List.cons_append, scan, if_pos here, ih later, List.append_assoc]
      rfl

theorem Spells.whole {lexeme : Lexeme} (whole : isWhole lexeme = true) : Spells lexeme [lexeme] := by
  intro rest broken
  cases lexeme with
  | nil => cases whole
  | cons first more =>
      obtain ⟨noSpace, joined⟩ := Bool.and_eq_true_iff.mp whole
      have begun : scan [] (first :: more ++ rest) = scan [first] (more ++ rest) := by
        rw [List.cons_append, scan]
        simp [continues, finish, bne_iff_ne.mp noSpace]
      rw [begun, scan_joins joined, scan_broken _ broken]
      rfl

theorem isWhole_of_isName {lexeme : Lexeme} (name : isName lexeme = true) : isWhole lexeme = true :=
  (Bool.and_eq_true_iff.mp name).1

theorem isWhole_of_isNumeral {lexeme : Lexeme} (numeral : isNumeral lexeme = true) :
    isWhole lexeme = true :=
  (Bool.and_eq_true_iff.mp numeral).1

theorem isNumeral_of_isName {lexeme : Lexeme} (name : isName lexeme = true) :
    isNumeral lexeme = false := by
  cases lexeme with
  | nil => rfl
  | cons first rest =>
      have letter : isLetter first = true := (Bool.and_eq_true_iff.mp name).2
      have noDigit : first.isDigit = false := by
        simp only [isLetter, Bool.and_eq_true, Bool.not_eq_true'] at letter
        exact letter.1
      simp [isNumeral, noDigit]

theorem ne_mark {lexeme : Lexeme} (word : isName lexeme = true ∨ isNumeral lexeme = true)
    {character : Char} (isMark : character ∈ '-' :: breaks) : lexeme ≠ [character] := by
  have all : ('-' :: breaks).all (fun mark => !(isName [mark] || isNumeral [mark])) = true := by decide
  have noWord := List.all_eq_true.mp all character isMark
  simp only [Bool.not_eq_true', Bool.or_eq_false_iff] at noWord
  rintro rfl
  simp [noWord] at word

theorem joins_digits {first : Char} (digit : first.isDigit = true) {before more : List Char}
    (digits : ∀ character ∈ more, character.isDigit = true) :
    joins (first :: before) more = true := by
  induction more generalizing before with
  | nil => rfl
  | cons character more ih =>
      obtain ⟨here, later⟩ := List.forall_mem_cons.mp digits
      have goes : continues (first :: before) character = true := by
        have noLetter : isLetter first = false := by simp [isLetter, digit]
        simp [continues, noLetter, digit, here]
      rw [joins, goes, Bool.true_and]
      exact ih later

theorem isNumeral_repr (number : Nat) : isNumeral (toString number).toList = true := by
  have digits : ∀ character ∈ (toString number).toList, character.isDigit = true := by
    intro character member
    rw [Nat.toString_eq_repr, Nat.toList_repr] at member
    exact Nat.isDigit_of_mem_toDigits (by decide) (by decide) member
  have present : (toString number).toList ≠ [] := by
    rw [Nat.toString_eq_repr, Nat.toList_repr]
    exact Nat.toDigits_ne_nil
  generalize (toString number).toList = lexeme at *
  cases lexeme with
  | nil => exact absurd rfl present
  | cons first rest =>
      obtain ⟨here, later⟩ := List.forall_mem_cons.mp digits
      have noSpace : first ≠ ' ' := by
        rintro rfl
        cases here
      simp [isNumeral, isWhole, here, noSpace, joins_digits here later]

end Mechanism.Text
