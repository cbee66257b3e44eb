/-!
Stable sorting by a key: operands with equal keys keep their order.
-/

namespace Mechanism.Ordering

variable {α : Type} (before : α → α → Bool)

def place (item : α) : List α → List α
  | [] => [item]
  | head :: tail => if before head item then head :: place item tail else item :: head :: tail

def sort : List α → List α
  | [] => []
  | head :: tail => place before head (sort tail)

theorem place_perm (item : α) (items : List α) :
    (place before item items).Perm (item :: items) := by
  induction items with
  | nil => exact List.Perm.refl _
  | cons head tail ih =>
    unfold place
    split
    · exact (ih.cons head).trans (List.Perm.swap item head tail)
    · exact List.Perm.refl _

theorem sort_perm (items : List α) : (sort before items).Perm items := by
  induction items with
  | nil => exact List.Perm.refl _
  | cons head tail ih => exact (place_perm before head (sort before tail)).trans (ih.cons head)

@[simp] theorem length_sort (items : List α) : (sort before items).length = items.length :=
  (sort_perm before items).length_eq

@[simp] theorem mem_sort {item : α} {items : List α} : item ∈ sort before items ↔ item ∈ items :=
  (sort_perm before items).mem_iff

end Mechanism.Ordering
