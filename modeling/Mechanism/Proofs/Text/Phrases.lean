import Mechanism.Proofs.Exact
import Mechanism.Proofs.Text.Lexemes

/-!
How formulas are read. A product and a quotient bind more tightly than a sum and a difference, and a
power more tightly than these; operations of the same rank are read from left to right, and a minus
sign in front of a factor belongs to that factor. A text can be read in one way only, since `read?`
finds every reading there is.
-/

namespace Mechanism.Text

/-- The operations that are read from left to right. -/
inductive Operation where
  | plus | minus | times | divided
  deriving DecidableEq

open Classical in
/-- There is no quotient of anything and zero. -/
noncomputable def Operation.value : Operation → ℝ → ℝ → Option ℝ
  | plus, x, y => some (x + y)
  | minus, x, y => some (x - y)
  | times, x, y => some (x * y)
  | divided, x, y => if y = 0 then none else some (x / y)

inductive Phrase where
  | numeral (written : Lexeme)
  | entry (name : Lexeme) (places : List Lexeme)
  | joined (operation : Operation) (left right : Phrase)
  | negated (phrase : Phrase)
  | power (base exponent : Phrase)
  | call (function : Elementary) (argument : Phrase)
  | angle (y x : Phrase)
  | choice (relation : Relation) (left right chosen otherwise : Phrase)
  deriving DecidableEq

structure Lexicon where
  numeral : Lexeme → Option ℝ
  entry : Lexeme → List Lexeme → Option ℝ

open Classical in
/-- The value of a phrase; none if something in it that is needed has no value. -/
noncomputable def Phrase.value (lexicon : Lexicon) : Phrase → Option ℝ
  | numeral written => lexicon.numeral written
  | entry name places => lexicon.entry name places
  | joined operation left right => do
    let x ← left.value lexicon
    let y ← right.value lexicon
    operation.value x y
  | negated phrase => (phrase.value lexicon).map (- ·)
  | power base exponent => do
    let b ← base.value lexicon
    let e ← exponent.value lexicon
    realPower b e
  | call function argument => do
    let x ← argument.value lexicon
    function.realApply x
  | angle y x => do
    let ordinate ← y.value lexicon
    let abscissa ← x.value lexicon
    return realAngle ordinate abscissa
  | choice relation left right chosen otherwise => do
    let l ← left.value lexicon
    let r ← right.value lexicon
    if relation.Holds l r then chosen.value lexicon else otherwise.value lexicon

inductive Level where
  | sum | product | factor | primary
  deriving DecidableEq

namespace Level

/-- The level of the operands that the operations of a level join. -/
def operand : Level → Level
  | sum => product
  | _ => factor

def operation? : Level → Lexeme → Option Operation
  | sum, ['+'] => some .plus
  | sum, ['-'] => some .minus
  | product, ['*'] => some .times
  | product, ['/'] => some .divided
  | _, _ => none

end Level

/-- The phrases that lexemes can be read as, at each level. -/
inductive Reads : Level → List Lexeme → Phrase → Prop where
  | sum {written phrase} (product : Reads .product written phrase) : Reads .sum written phrase
  | product {written phrase} (factor : Reads .factor written phrase) : Reads .product written phrase
  | joined {level mark operation before after left right}
      (marked : level.operation? mark = some operation) (first : Reads level before left)
      (second : Reads level.operand after right) :
      Reads level (before ++ mark :: after) (.joined operation left right)
  | factor {written phrase} (primary : Reads .primary written phrase) : Reads .factor written phrase
  | negated {written phrase} (factor : Reads .factor written phrase) :
      Reads .factor (['-'] :: written) (.negated phrase)
  | power {before after base exponent} (first : Reads .primary before base)
      (second : Reads .factor after exponent) :
      Reads .factor (before ++ ['^'] :: after) (.power base exponent)
  | numeral {lexeme} (isNumeral : isNumeral lexeme = true) : Reads .primary [lexeme] (.numeral lexeme)
  | name {lexeme} (isName : isName lexeme = true) : Reads .primary [lexeme] (.entry lexeme [])
  | place {lexeme row} (isName : isName lexeme = true) :
      Reads .primary [lexeme, ['['], row, [']']] (.entry lexeme [row])
  | places {lexeme row column} (isName : isName lexeme = true) :
      Reads .primary [lexeme, ['['], row, [','], column, [']']] (.entry lexeme [row, column])
  | enclosed {written phrase} (inside : Reads .sum written phrase) :
      Reads .primary (['('] :: (written ++ [[')']])) phrase
  | call {written phrase} (function : Elementary) (argument : Reads .sum written phrase) :
      Reads .primary (function.name.toList :: ['('] :: (written ++ [[')']])) (.call function phrase)
  | angle {before after y x} (first : Reads .sum before y) (second : Reads .sum after x) :
      Reads .primary
        ("atan2".toList :: ['('] :: (before ++ [','] :: (after ++ [[')']]))) (.angle y x)
  | choice {first second third fourth left right chosen otherwise} (relation : Relation)
      (readLeft : Reads .sum first left) (readRight : Reads .sum second right)
      (readChosen : Reads .sum third chosen) (readOtherwise : Reads .sum fourth otherwise) :
      Reads .primary ("if".toList :: ['('] :: (first ++ relation.mark.toList ::
        (second ++ [','] :: (third ++ [','] :: (fourth ++ [[')']])))))
        (.choice relation left right chosen otherwise)

abbrev Found := Option (Phrase × List Lexeme)

def behind? (lexeme : Lexeme) : List Lexeme → Option (List Lexeme)
  | [] => none
  | next :: rest => if next = lexeme then some rest else none

def relation? : List Lexeme → Option (Relation × List Lexeme)
  | [] => none
  | next :: rest => (Relation.ofMark? (String.ofList next)).map fun relation => (relation, rest)

def readPlaces (name : Lexeme) : List Lexeme → Found
  | [] => none
  | row :: rest =>
    match behind? [','] rest with
    | some (column :: rest) =>
      (behind? [']'] rest).map fun rest => (.entry name [row, column], rest)
    | some [] => none
    | none => (behind? [']'] rest).map fun rest => (.entry name [row], rest)

def readWord (word : Lexeme) (rest : List Lexeme) : Found :=
  if isNumeral word then some (.numeral word, rest)
  else if isName word then some (.entry word [], rest)
  else none

mutual
def readAt : Nat → Level → List Lexeme → Found
  | 0, _, _ => none
  | rounds + 1, .factor, written =>
    match behind? ['-'] written with
    | some rest => do
      let (phrase, rest) ← readAt rounds .factor rest
      return (.negated phrase, rest)
    | none => do
      let (base, rest) ← readAt rounds .primary written
      match behind? ['^'] rest with
      | some rest =>
        let (exponent, rest) ← readAt rounds .factor rest
        return (.power base exponent, rest)
      | none => return (base, rest)
  | rounds + 1, .primary, written =>
    match behind? ['('] written, written with
    | some rest, _ => do
      let (phrase, rest) ← readAt rounds .sum rest
      let rest ← behind? [')'] rest
      return (phrase, rest)
    | none, [] => none
    | none, word :: rest =>
      match behind? ['('] rest, behind? ['['] rest with
      | some rest, _ => readCall rounds word rest
      | none, some rest => readPlaces word rest
      | none, none => readWord word rest
  | rounds + 1, level, written => do
    let (phrase, rest) ← readAt rounds level.operand written
    readMore rounds level phrase rest
def readMore : Nat → Level → Phrase → List Lexeme → Found
  | 0, _, _, _ => none
  | _ + 1, _, phrase, [] => some (phrase, [])
  | rounds + 1, level, phrase, mark :: rest =>
    match level.operation? mark with
    | some operation => do
      let (operand, rest) ← readAt rounds level.operand rest
      readMore rounds level (.joined operation phrase operand) rest
    | none => some (phrase, mark :: rest)
def readCall : Nat → Lexeme → List Lexeme → Found
  | 0, _, _ => none
  | rounds + 1, name, rest =>
    if name = "atan2".toList then do
      let (y, rest) ← readAt rounds .sum rest
      let rest ← behind? [','] rest
      let (x, rest) ← readAt rounds .sum rest
      let rest ← behind? [')'] rest
      return (.angle y x, rest)
    else if name = "if".toList then do
      let (left, rest) ← readAt rounds .sum rest
      let (relation, rest) ← relation? rest
      let (right, rest) ← readAt rounds .sum rest
      let rest ← behind? [','] rest
      let (chosen, rest) ← readAt rounds .sum rest
      let rest ← behind? [','] rest
      let (otherwise, rest) ← readAt rounds .sum rest
      let rest ← behind? [')'] rest
      return (.choice relation left right chosen otherwise, rest)
    else do
      let function ← Elementary.ofName? (String.ofList name)
      let (argument, rest) ← readAt rounds .sum rest
      let rest ← behind? [')'] rest
      return (.call function argument, rest)
end

def read? (written : List Lexeme) : Option Phrase :=
  match readAt (8 * written.length + 8) .sum written with
  | some (phrase, []) => some phrase
  | _ => none

namespace Level

/-- The marks that would go on with what has been read at a level. -/
def beyond : Level → List Lexeme
  | sum => [['('], ['['], ['^'], ['*'], ['/']]
  | primary => [['('], ['[']]
  | _ => [['('], ['['], ['^']]

def Clear (level : Level) (rest : List Lexeme) : Prop := ∀ mark ∈ rest.head?, mark ∉ level.beyond

/-- The rounds that are left over when a level is reached from that of a sum. -/
def slack : Level → Nat
  | sum => 0
  | product => 2
  | factor => 4
  | primary => 6

theorem Clear.cons {level : Level} {mark : Lexeme} (unlike : mark ∉ level.beyond)
    (rest : List Lexeme) : level.Clear (mark :: rest) := by
  intro next head
  cases head
  exact unlike

theorem Clear.of_subset {level other : Level} {rest : List Lexeme} (clear : level.Clear rest)
    (subset : other.beyond ⊆ level.beyond) : other.Clear rest :=
  fun mark head member => clear mark head (subset member)

end Level

theorem behind?_clear {level : Level} {rest : List Lexeme} (clear : level.Clear rest) {mark : Lexeme}
    (known : mark ∈ level.beyond) : behind? mark rest = none := by
  cases rest with
  | nil => rfl
  | cons next rest =>
      refine if_neg ?_
      rintro rfl
      exact clear _ rfl known

theorem behind?_self (mark : Lexeme) (rest : List Lexeme) : behind? mark (mark :: rest) = some rest :=
  if_pos rfl

theorem Reads.length_pos {level : Level} {written : List Lexeme} {phrase : Phrase}
    (reads : Reads level written phrase) : 1 ≤ written.length := by
  induction reads with
  | sum _ ih => exact ih
  | product _ ih => exact ih
  | factor _ ih => exact ih
  | joined | power => exact List.length_append ▸ Nat.le_add_left 1 _
  | _ => exact Nat.le_add_left 1 _

theorem Reads.unsigned {written : List Lexeme} {phrase : Phrase}
    (reads : Reads .primary written phrase) (rest : List Lexeme) :
    behind? ['-'] (written ++ rest) = none := by
  generalize same : Level.primary = level at reads
  induction reads with
  | numeral numeral => exact if_neg (ne_mark (Or.inr numeral) List.mem_cons_self)
  | name name | place name | places name =>
      exact if_neg (ne_mark (Or.inl name) List.mem_cons_self)
  | call function => cases function <;> rfl
  | enclosed | angle | choice => rfl
  | joined marked => subst same; cases marked
  | _ => cases same

/-- What has been read is found, and then what follows on it. -/
structure Complete (level : Level) (written : List Lexeme) (phrase : Phrase) : Prop where
  finds : ∀ {least : Nat} {rest : List Lexeme} {found : Phrase × List Lexeme}, level.Clear rest →
    (∀ rounds, least ≤ rounds → readMore rounds level phrase rest = some found) →
    ∀ rounds, least + 8 * written.length ≤ rounds + level.slack →
      readAt rounds level (written ++ rest) = some found

def Stops (level : Level) (rest : List Lexeme) : Prop :=
  ∀ mark ∈ rest.head?, level.operation? mark = none

theorem readMore_stops {level : Level} {rest : List Lexeme} (stops : Stops level rest)
    (phrase : Phrase) {rounds : Nat} (positive : 1 ≤ rounds) :
    readMore rounds level phrase rest = some (phrase, rest) := by
  obtain ⟨rounds, rfl⟩ := Nat.exists_eq_add_of_le' positive
  cases rest with
  | nil => rw [readMore]
  | cons mark rest =>
      rw [readMore, stops mark rfl]

theorem Complete.stops {level : Level} {written rest : List Lexeme} {phrase : Phrase}
    (complete : Complete level written phrase) (clear : level.Clear rest) (stops : Stops level rest)
    {rounds : Nat} (enough : 1 + 8 * written.length ≤ rounds + level.slack) :
    readAt rounds level (written ++ rest) = some (phrase, rest) :=
  complete.finds clear (fun _ positive => readMore_stops stops phrase positive) rounds enough

/-- The levels that have operations. -/
def Level.Joins (level : Level) : Prop := level = .sum ∨ level = .product

section Joins

variable {level : Level} (joins : level.Joins)

include joins

theorem Level.Joins.slack_operand : level.operand.slack = level.slack + 2 := by
  rcases joins with rfl | rfl <;> rfl

theorem Level.Joins.clear_operand {rest : List Lexeme} (clear : level.Clear rest) :
    level.operand.Clear rest := by
  rcases joins with rfl | rfl <;> exact clear.of_subset (by decide)

theorem readAt_operand (rounds : Nat) (written : List Lexeme) :
    readAt (rounds + 1) level written =
      (readAt rounds level.operand written).bind fun found =>
        readMore rounds level found.1 found.2 := by
  rcases joins with rfl | rfl <;> rfl

end Joins

theorem Level.marked_operand {level : Level} {mark : Lexeme} {operation : Operation}
    (marked : level.operand.operation? mark = some operation) : mark ∈ level.beyond := by
  cases level with
  | sum =>
      simp only [operand] at marked
      unfold operation? at marked
      split at marked <;> simp_all [beyond]
  | _ => cases marked

theorem stops_operand {level : Level} {rest : List Lexeme} (clear : level.Clear rest) :
    Stops level.operand rest := by
  intro mark head
  cases marked : level.operand.operation? mark with
  | none => rfl
  | some => exact absurd (Level.marked_operand marked) (clear mark head)

theorem Level.marked {level : Level} {mark : Lexeme} {operation : Operation}
    (marked : level.operation? mark = some operation) : level.Joins ∧ mark ∉ level.beyond := by
  unfold operation? at marked
  split at marked <;> simp_all [Joins, beyond]

namespace Complete

variable {level : Level} {written : List Lexeme} {phrase : Phrase}

theorem operand (joins : level.Joins) (long : 1 ≤ written.length)
    (complete : Complete level.operand written phrase) : Complete level written phrase := by
  refine ⟨fun {least rest found} clear more rounds enough => ?_⟩
  have narrow := joins.slack_operand
  have bound : level.slack ≤ 2 := by rcases joins with rfl | rfl <;> decide
  obtain ⟨rounds, rfl⟩ : ∃ less, rounds = less + 1 := ⟨rounds - 1, by omega⟩
  rw [readAt_operand joins, complete.stops (joins.clear_operand clear) (stops_operand clear)
    (by omega)]
  exact more rounds (by omega)

/-- An operation is found behind its first operand, and its second operand is read at the level of
the operands. -/
theorem joined {mark : Lexeme} {operation : Operation} {before after : List Lexeme}
    {left right : Phrase} (marked : level.operation? mark = some operation)
    (first : Complete level before left) (second : Complete level.operand after right) :
    Complete level (before ++ mark :: after) (.joined operation left right) := by
  refine ⟨fun {least rest found} clear more rounds enough => ?_⟩
  obtain ⟨joins, unlike⟩ := Level.marked marked
  have narrow := joins.slack_operand
  rw [List.length_append, List.length_cons] at enough
  have follows (rounds : Nat) (least : least + 8 * (after.length + 1) ≤ rounds) :
      readMore rounds level left (mark :: (after ++ rest)) = some found := by
    obtain ⟨rounds, rfl⟩ : ∃ less, rounds = less + 1 := ⟨rounds - 1, by omega⟩
    rw [readMore, marked]
    simp only
    rw [second.stops (joins.clear_operand clear) (stops_operand clear) (by omega)]
    exact more rounds (by omega)
  rw [List.append_assoc, List.cons_append]
  exact first.finds (.cons unlike _) follows rounds (by omega)

theorem of_plain (plain : level = .factor ∨ level = .primary) (long : 1 ≤ written.length)
    (finds : ∀ rest, level.Clear rest → ∀ rounds, 8 * written.length ≤ rounds + level.slack →
      readAt (rounds + 1) level (written ++ rest) = some (phrase, rest)) :
    Complete level written phrase := by
  refine ⟨fun {least rest found} clear more rounds enough => ?_⟩
  have stops : Stops level rest := by rcases plain with rfl | rfl <;> exact fun _ _ => rfl
  have bound : level.slack ≤ 6 := by rcases plain with rfl | rfl <;> decide
  have positive : 1 ≤ least := by
    by_contra none
    have first := more 0 (by omega)
    rw [readMore] at first
    cases first
  obtain rfl : (phrase, rest) = found :=
    Option.some.inj ((readMore_stops stops phrase positive).symm.trans (more least le_rfl))
  obtain ⟨rounds, rfl⟩ : ∃ less, rounds = less + 1 := ⟨rounds - 1, by omega⟩
  exact finds rest clear rounds (by omega)

theorem factor (reads : Reads .primary written phrase) (complete : Complete .primary written phrase) :
    Complete .factor written phrase := by
  refine of_plain (Or.inl rfl) reads.length_pos fun rest clear rounds enough => ?_
  simp only [Level.slack] at enough
  have read : readAt rounds .primary (written ++ rest) = some (phrase, rest) :=
    complete.stops (clear.of_subset (by decide)) (fun _ _ => rfl) (by simp only [Level.slack]; omega)
  have last : behind? ['^'] rest = none := behind?_clear clear (by decide)
  simp [readAt, reads.unsigned, read, last]

theorem negated (complete : Complete .factor written phrase) :
    Complete .factor (['-'] :: written) (.negated phrase) := by
  refine of_plain (Or.inl rfl) (Nat.le_add_left 1 _) fun rest clear rounds enough => ?_
  simp only [Level.slack, List.length_cons] at enough
  have read : readAt rounds .factor (written ++ rest) = some (phrase, rest) :=
    complete.stops clear (fun _ _ => rfl) (by simp only [Level.slack]; omega)
  simp [readAt, behind?_self, read]

theorem power {before after : List Lexeme} {base exponent : Phrase}
    (reads : Reads .primary before base) (first : Complete .primary before base)
    (second : Complete .factor after exponent) :
    Complete .factor (before ++ ['^'] :: after) (.power base exponent) := by
  have long : 1 ≤ (before ++ ['^'] :: after).length := List.length_append ▸ Nat.le_add_left 1 _
  refine of_plain (Or.inl rfl) long fun rest clear rounds enough => ?_
  simp only [Level.slack, List.length_append, List.length_cons] at enough
  have read : readAt rounds .primary (before ++ ['^'] :: (after ++ rest)) =
      some (base, ['^'] :: (after ++ rest)) :=
    first.stops (.cons (by decide) _) (fun _ _ => rfl) (by simp only [Level.slack]; omega)
  have later : readAt rounds .factor (after ++ rest) = some (exponent, rest) :=
    second.stops clear (fun _ _ => rfl) (by simp only [Level.slack]; omega)
  simp [readAt, reads.unsigned, read, behind?_self, later]

theorem word {lexeme : Lexeme} (isWord : isName lexeme = true ∨ isNumeral lexeme = true)
    (reads : ∀ rest, readWord lexeme rest = some (phrase, rest)) :
    Complete .primary [lexeme] phrase := by
  refine of_plain (Or.inr rfl) le_rfl fun rest clear rounds _ => ?_
  have noMark : lexeme ≠ ['('] := ne_mark isWord (by decide)
  have opened : behind? ['('] (lexeme :: rest) = none := if_neg noMark
  have called : behind? ['('] rest = none := behind?_clear clear (by decide)
  have placed : behind? ['['] rest = none := behind?_clear clear (by decide)
  simp [readAt, opened, called, placed, reads]

theorem places {lexeme : Lexeme} (isWord : isName lexeme = true) {inside : List Lexeme}
    (reads : ∀ rest, readPlaces lexeme (inside ++ rest) = some (phrase, rest)) :
    Complete .primary (lexeme :: ['['] :: inside) phrase := by
  refine of_plain (Or.inr rfl) (Nat.le_add_left 1 _) fun rest _ rounds _ => ?_
  have noMark : lexeme ≠ ['('] := ne_mark (Or.inl isWord) (by decide)
  have opened (rest : List Lexeme) : behind? ['('] (lexeme :: rest) = none := if_neg noMark
  have called : behind? ['('] (['['] :: (inside ++ rest)) = none := rfl
  simp [readAt, opened, called, behind?_self, reads]

theorem inside (complete : Complete .sum written phrase) {mark : Lexeme}
    (last : mark ∉ Level.sum.beyond) (noOperation : Level.sum.operation? mark = none)
    (rest : List Lexeme) {rounds : Nat} (enough : 1 + 8 * written.length ≤ rounds) :
    readAt rounds .sum (written ++ mark :: rest) = some (phrase, mark :: rest) :=
  complete.stops (.cons last rest) (fun _ head => by cases head; exact noOperation) enough

theorem enclosed (complete : Complete .sum written phrase) :
    Complete .primary (['('] :: (written ++ [[')']])) phrase := by
  refine of_plain (Or.inr rfl) (Nat.le_add_left 1 _) fun rest _ rounds enough => ?_
  simp only [Level.slack, List.length_cons, List.length_append, List.length_nil] at enough
  have read : readAt rounds .sum (written ++ [')'] :: rest) = some (phrase, [')'] :: rest) :=
    complete.inside (by decide) rfl rest (by omega)
  simp [readAt, behind?_self, read]

theorem called {name : Lexeme} (word : name ≠ ['(']) {inside : List Lexeme}
    (reads : ∀ rest rounds, 8 * inside.length < rounds →
      readCall rounds name (inside ++ rest) = some (phrase, rest)) :
    Complete .primary (name :: ['('] :: inside) phrase := by
  refine of_plain (Or.inr rfl) (Nat.le_add_left 1 _) fun rest _ rounds enough => ?_
  simp only [Level.slack, List.length_cons] at enough
  have opened (rest : List Lexeme) : behind? ['('] (name :: rest) = none := if_neg word
  have read := reads rest rounds (by omega)
  simp [readAt, opened, behind?_self, read]

theorem call (function : Elementary) (complete : Complete .sum written phrase) :
    Complete .primary (function.name.toList :: ['('] :: (written ++ [[')']]))
      (.call function phrase) := by
  refine called (by cases function <;> decide) fun rest rounds enough => ?_
  obtain ⟨rounds, rfl⟩ : ∃ less, rounds = less + 1 := ⟨rounds - 1, by omega⟩
  simp only [List.length_append, List.length_cons, List.length_nil] at enough
  have read : readAt rounds .sum (written ++ [')'] :: rest) = some (phrase, [')'] :: rest) :=
    complete.inside (by decide) rfl rest (by omega)
  have noAngle : function.name.toList ≠ "atan2".toList := by cases function <;> decide
  have noChoice : function.name.toList ≠ "if".toList := by cases function <;> decide
  rw [readCall, if_neg noAngle, if_neg noChoice]
  simp [Elementary.ofName?_name, behind?_self, read]

theorem angle {before after : List Lexeme} {y x : Phrase} (first : Complete .sum before y)
    (second : Complete .sum after x) :
    Complete .primary ("atan2".toList :: ['('] :: (before ++ [','] :: (after ++ [[')']])))
      (.angle y x) := by
  refine called (by decide) fun rest rounds enough => ?_
  obtain ⟨rounds, rfl⟩ : ∃ less, rounds = less + 1 := ⟨rounds - 1, by omega⟩
  simp only [List.length_append, List.length_cons, List.length_nil] at enough
  have read : readAt rounds .sum (before ++ [','] :: (after ++ [')'] :: rest)) =
      some (y, [','] :: (after ++ [')'] :: rest)) :=
    first.inside (by decide) rfl _ (by omega)
  have later : readAt rounds .sum (after ++ [')'] :: rest) = some (x, [')'] :: rest) :=
    second.inside (by decide) rfl rest (by omega)
  rw [readCall, if_pos rfl]
  simp [behind?_self, read, later]

theorem choice {first second third fourth : List Lexeme} {left right chosen otherwise : Phrase}
    (relation : Relation) (completeLeft : Complete .sum first left)
    (completeRight : Complete .sum second right) (completeChosen : Complete .sum third chosen)
    (completeOtherwise : Complete .sum fourth otherwise) :
    Complete .primary ("if".toList :: ['('] :: (first ++ relation.mark.toList ::
      (second ++ [','] :: (third ++ [','] :: (fourth ++ [[')']])))))
      (.choice relation left right chosen otherwise) := by
  refine called (by decide) fun rest rounds enough => ?_
  obtain ⟨rounds, rfl⟩ : ∃ less, rounds = less + 1 := ⟨rounds - 1, by omega⟩
  simp only [List.length_append, List.length_cons, List.length_nil] at enough
  have compared (rest : List Lexeme) : readAt rounds .sum (first ++ relation.mark.toList :: rest) =
      some (left, relation.mark.toList :: rest) :=
    completeLeft.inside (by cases relation <;> decide) (by cases relation <;> rfl) rest (by omega)
  have found (rest : List Lexeme) :
      relation? (relation.mark.toList :: rest) = some (relation, rest) := by
    simp [relation?, Relation.ofMark?_mark]
  have readRight (rest : List Lexeme) :
      readAt rounds .sum (second ++ [','] :: rest) = some (right, [','] :: rest) :=
    completeRight.inside (by decide) rfl rest (by omega)
  have readChosen (rest : List Lexeme) :
      readAt rounds .sum (third ++ [','] :: rest) = some (chosen, [','] :: rest) :=
    completeChosen.inside (by decide) rfl rest (by omega)
  have readOtherwise : readAt rounds .sum (fourth ++ [')'] :: rest) =
      some (otherwise, [')'] :: rest) :=
    completeOtherwise.inside (by decide) rfl rest (by omega)
  rw [readCall, if_neg (by decide), if_pos rfl]
  simp [behind?_self, compared, found, readRight, readChosen, readOtherwise]

end Complete

theorem Reads.complete {level : Level} {written : List Lexeme} {phrase : Phrase}
    (reads : Reads level written phrase) : Complete level written phrase := by
  induction reads with
  | sum reads ih => exact .operand (Or.inl rfl) reads.length_pos ih
  | product reads ih => exact .operand (Or.inr rfl) reads.length_pos ih
  | joined marked _ _ first second => exact .joined marked first second
  | factor reads ih => exact ih.factor reads
  | negated _ ih => exact ih.negated
  | power reads _ first second => exact .power reads first second
  | numeral numeral => exact .word (Or.inr numeral) fun rest => if_pos numeral
  | name name =>
      refine .word (Or.inl name) fun rest => ?_
      rw [readWord, isNumeral_of_isName name, if_neg Bool.false_ne_true, if_pos name]
  | place name => exact .places name fun rest => rfl
  | places name => exact .places name fun rest => rfl
  | enclosed _ ih => exact ih.enclosed
  | call function _ ih => exact ih.call function
  | angle _ _ first second => exact .angle first second
  | choice relation _ _ _ _ first second third fourth =>
      exact .choice relation first second third fourth

theorem Reads.read?_eq {written : List Lexeme} {phrase : Phrase}
    (reads : Reads .sum written phrase) : read? written = some phrase := by
  have clear : Level.sum.Clear [] := fun _ => nofun
  have found : readAt (8 * written.length + 8) .sum (written ++ []) = some (phrase, []) :=
    reads.complete.stops clear (fun _ => nofun) (by simp only [Level.slack]; omega)
  rw [List.append_nil] at found
  rw [read?, found]

theorem Reads.unique {written : List Lexeme} {phrase other : Phrase}
    (reads : Reads .sum written phrase) (again : Reads .sum written other) : phrase = other :=
  Option.some.inj (reads.read?_eq.symm.trans again.read?_eq)

theorem value_joined {lexicon : Lexicon} {operation : Operation} {left right : Phrase} {value : ℝ} :
    (Phrase.joined operation left right).value lexicon = some value ↔
      ∃ x y, left.value lexicon = some x ∧ right.value lexicon = some y ∧
        operation.value x y = some value := by
  simp only [Phrase.value, Option.bind_eq_bind, Option.bind_eq_some_iff]
  exact ⟨fun ⟨x, first, y, rest⟩ => ⟨x, y, first, rest⟩, fun ⟨x, y, first, rest⟩ => ⟨x, first, y, rest⟩⟩

/-- Read from left to right, an operation of a product and a quotient is one of the product and the
dividend, followed by the division. -/
theorem times_value {operation : Operation} (multiplies : operation = .times ∨ operation = .divided)
    {x y z w : ℝ} (value : operation.value y z = some w) : operation.value (x * y) z = some (x * w) := by
  rcases multiplies with rfl | rfl
  · cases value
    exact congrArg some (mul_assoc x y z)
  · simp only [Operation.value, Option.ite_none_left_eq_some, Option.some.injEq] at value ⊢
    obtain ⟨nonzero, rfl⟩ := value
    exact ⟨nonzero, mul_div_assoc x y z⟩

theorem product_operation {mark : Lexeme} {operation : Operation}
    (marked : Level.product.operation? mark = some operation) :
    operation = .times ∨ operation = .divided := by
  unfold Level.operation? at marked
  split at marked <;> simp_all

theorem Reads.times {before after : List Lexeme} {left right : Phrase}
    (first : Reads .product before left) (second : Reads .product after right) :
    ∃ phrase, Reads .product (before ++ ['*'] :: after) phrase ∧
      ∀ lexicon x y, left.value lexicon = some x → right.value lexicon = some y →
        phrase.value lexicon = some (x * y) := by
  generalize same : Level.product = level at second
  induction second with
  | product factor =>
      exact ⟨_, .joined rfl first factor, fun lexicon x y leftValue rightValue =>
        value_joined.mpr ⟨x, y, leftValue, rightValue, rfl⟩⟩
  | @joined level mark operation inside behind one other marked _ last ih =>
      subst same
      obtain ⟨phrase, reads, values⟩ := ih rfl
      refine ⟨.joined operation phrase other, ?_, fun lexicon x y leftValue rightValue => ?_⟩
      · have whole := Reads.joined marked reads last
        rwa [List.append_assoc, List.cons_append] at whole
      · obtain ⟨y, z, oneValue, otherValue, result⟩ := value_joined.mp rightValue
        exact value_joined.mpr ⟨x * y, z, values lexicon x y leftValue oneValue, otherValue,
          times_value (product_operation marked) result⟩
  | _ => cases same

theorem Reads.opposite {written : List Lexeme} {phrase : Phrase}
    (reads : Reads .product written phrase) :
    ∃ opposite, Reads .product (['-'] :: written) opposite ∧
      ∀ lexicon x, phrase.value lexicon = some x → opposite.value lexicon = some (-x) := by
  generalize same : Level.product = level at reads
  induction reads with
  | product factor =>
      refine ⟨_, .product (.negated factor), fun lexicon x value => ?_⟩
      rw [Phrase.value, value]
      rfl
  | @joined level mark operation inside behind one other marked _ last ih =>
      subst same
      obtain ⟨opposite, reads, values⟩ := ih rfl
      refine ⟨.joined operation opposite other, .joined marked reads last, fun lexicon x value => ?_⟩
      obtain ⟨y, z, oneValue, otherValue, result⟩ := value_joined.mp value
      have scaled := times_value (product_operation marked) (x := -1) result
      rw [neg_one_mul, neg_one_mul] at scaled
      exact value_joined.mpr ⟨-y, z, values lexicon y oneValue, otherValue, scaled⟩
  | _ => cases same

end Mechanism.Text
