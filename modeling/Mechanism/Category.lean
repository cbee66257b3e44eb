/-!
The roles of expressions in a model, and sets of roles. A set lists its members in the fixed order
of the roles, so sets with the same members are equal.
-/

namespace Mechanism

inductive Category where
  | variable | parameter | state | derivativeOfState | sensor | userExpression | loopInternal
  deriving DecidableEq, Repr

namespace Category

def all : List Category :=
  [.variable, .parameter, .state, .derivativeOfState, .sensor, .userExpression, .loopInternal]

def name : Category → String
  | .variable => "Variable"
  | .parameter => "Parameter"
  | .state => "State"
  | .derivativeOfState => "DerivativeOfState"
  | .sensor => "Sensor"
  | .userExpression => "UserExpression"
  | .loopInternal => "LoopInternal"

def ofName? (word : String) : Option Category := all.find? fun category => category.name == word

theorem ofName?_name (category : Category) : ofName? category.name = some category := by
  cases category <;> decide

theorem mem_all (category : Category) : category ∈ all := by
  cases category <;> decide

end Category

structure CategorySet where
  members : List Category
  ordered : members = Category.all.filter fun category => members.contains category
  deriving DecidableEq

namespace CategorySet

def contains (set : CategorySet) (category : Category) : Bool := set.members.contains category

def filter (test : Category → Bool) : CategorySet where
  members := Category.all.filter test
  ordered := by
    apply List.filter_congr
    intro category _
    simp [Category.mem_all]

@[simp] theorem contains_filter (test : Category → Bool) (category : Category) :
    (filter test).contains category = test category := by
  simp [contains, filter, Category.mem_all]

def ofList (categories : List Category) : CategorySet := filter fun category =>
  categories.contains category

def none : CategorySet := filter fun _ => false

def every : CategorySet := filter fun _ => true

def only (category : Category) : CategorySet := ofList [category]

def insert (set : CategorySet) (category : Category) : CategorySet :=
  filter fun other => set.contains other || other == category

def union (left right : CategorySet) : CategorySet :=
  filter fun category => left.contains category || right.contains category

def intersects (left right : CategorySet) : Bool := left.members.any right.contains

def isEmpty (set : CategorySet) : Bool := set.members.isEmpty

def isOnly (set : CategorySet) (category : Category) : Bool := set.members == [category]

def text (set : CategorySet) : String :=
  if set.isEmpty then "(none)" else String.intercalate "|" (set.members.map Category.name)

def listing (set : CategorySet) : String :=
  "\x7b" ++ String.intercalate ", " (set.members.map Category.name) ++ "\x7d"

end CategorySet

end Mechanism
