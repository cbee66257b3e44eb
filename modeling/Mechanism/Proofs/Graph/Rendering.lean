import Mechanism.Proofs.Expr.Written
import Mechanism.Proofs.Graph.Sharing

/-!
A run of sharing, seen from its end. The names that there are then determine everything that the run
has made: each value is the old one in which the parts with names have given way to them, and every
part that was to get a name has one.
-/

namespace Mechanism.Graph

variable {κ α β : Type} [Scalar κ] {repeated : Expr κ → Bool} {names : Expr κ → Option Symbol}

def isMarked (repeated : Expr κ → Bool) (expr : Expr κ) : Bool := isHoistable expr && repeated expr

/-- Names of marked expressions, among them those that have been given. -/
structure Completes (repeated : Expr κ → Bool) (names : Expr κ → Option Symbol)
    (state : Hoisting κ) : Prop where
  known : ∀ {expr : Expr κ} {symbol : Symbol},
    state.named[expr]? = some symbol → names expr = some symbol
  marked : ∀ {expr : Expr κ}, isMarked repeated expr = false → names expr = none

/-- The symbol has the value of the expression, of which nothing marked but the root is written
out. -/
structure Renders (repeated : Expr κ → Bool) (names : Expr κ → Option Symbol) (expr : Expr κ)
    (temporary : Symbol × Expr κ) : Prop where
  named : names expr = some temporary.1
  value_eq : temporary.2 = expr.renderBelow names
  clear : ∀ part ∈ expr.children.flatMap (Expr.written names), isMarked repeated part = false

/-- A run has given names to the expressions `made`, and to no others. -/
structure Grown (repeated : Expr κ → Bool) (made : List (Expr κ)) (before after : Hoisting κ) :
    Prop where
  unique : made.Nodup
  marked : ∀ expr ∈ made, isMarked repeated expr = true
  fresh : ∀ expr ∈ made, before.named[expr]? = none
  known : ∀ expr : Expr κ,
    after.named[expr]?.isSome ↔ before.named[expr]?.isSome ∨ expr ∈ made
  kept : ∀ {expr : Expr κ} {symbol : Symbol},
    before.named[expr]? = some symbol → after.named[expr]? = some symbol
  temporaries : ∃ new, after.temporaries = before.temporaries ++ new ∧
    ∀ names, Completes repeated names after → List.Forall₂ (Renders repeated names) made new

namespace Grown

variable {before middle after : Hoisting κ} {made more : List (Expr κ)}

theorem refl (state : Hoisting κ) : Grown repeated [] state state where
  unique := List.nodup_nil
  marked := nofun
  fresh := nofun
  known := by simp
  kept := fun found => found
  temporaries := ⟨[], by simp, fun _ _ => List.Forall₂.nil⟩

theorem completes_before (grown : Grown repeated made before after)
    (completes : Completes repeated names after) : Completes repeated names before :=
  ⟨fun found => completes.known (grown.kept found), completes.marked⟩

theorem completes_self (grown : Grown repeated made before after)
    (first : ∀ expr : Expr κ, before.named[expr]?.isSome → isMarked repeated expr = true) :
    Completes repeated (fun expr => after.named[expr]?) after := by
  refine ⟨fun found => found, fun {expr} unmarked => ?_⟩
  rw [← Option.not_isSome_iff_eq_none, grown.known]
  rintro (known | member)
  · rw [first expr known] at unmarked
    cases unmarked
  · rw [grown.marked expr member] at unmarked
    cases unmarked

theorem renders (grown : Grown repeated made before after) (none : before.temporaries = [])
    (completes : Completes repeated names after) :
    List.Forall₂ (Renders repeated names) made after.temporaries := by
  obtain ⟨new, same, renders⟩ := grown.temporaries
  rw [same, none]
  exact renders names completes

theorem trans (first : Grown repeated made before middle)
    (second : Grown repeated more middle after) :
    Grown repeated (made ++ more) before after where
  unique := by
    refine List.nodup_append.mpr ⟨first.unique, second.unique, ?_⟩
    rintro expr former other latter rfl
    have known := (first.known expr).mpr (Or.inr former)
    rw [second.fresh expr latter] at known
    cases known
  marked := by
    intro expr member
    exact (List.mem_append.mp member).elim (first.marked expr) (second.marked expr)
  fresh := by
    intro expr member
    rcases List.mem_append.mp member with former | latter
    · exact first.fresh expr former
    · rw [Option.eq_none_iff_forall_ne_some]
      intro symbol found
      have kept := first.kept found
      rw [second.fresh expr latter] at kept
      cases kept
  known := by
    intro expr
    rw [second.known, first.known, List.mem_append, or_assoc]
  kept := fun found => second.kept (first.kept found)
  temporaries := by
    obtain ⟨old, oldSame, oldRenders⟩ := first.temporaries
    obtain ⟨new, newSame, newRenders⟩ := second.temporaries
    refine ⟨old ++ new, by rw [newSame, oldSame, List.append_assoc], ?_⟩
    intro names completes
    exact List.rel_append (oldRenders names (second.completes_before completes))
      (newRenders names completes)

theorem nameTemporary {expr value : Expr κ} {state : Hoisting κ}
    (fresh : state.named[expr]? = none) (marked : isMarked repeated expr = true)
    (renders : ∀ names, Completes repeated names state → value = expr.renderBelow names ∧
      ∀ part ∈ expr.children.flatMap (Expr.written names), isMarked repeated part = false) :
    Grown repeated [expr] state ((Graph.nameTemporary expr value).perform state).2 := by
  rw [perform_nameTemporary]
  have kept : ∀ {other : Expr κ} {symbol : Symbol}, state.named[other]? = some symbol →
      other ≠ expr := by
    rintro other symbol found rfl
    rw [fresh] at found
    cases found
  refine ⟨List.nodup_singleton expr, ?_, ?_, ?_, ?_, ?_⟩
  · intro other member
    rwa [List.mem_singleton.mp member]
  · intro other member
    rwa [List.mem_singleton.mp member]
  · intro other
    rw [Std.HashMap.getElem?_insert, List.mem_singleton]
    by_cases same : expr = other
    · simp [same]
    · simp [same, Ne.symm same]
  · intro other symbol found
    rw [Std.HashMap.getElem?_insert, if_neg, found]
    simpa using Ne.symm (kept found)
  · refine ⟨_, rfl, fun names completes => ?_⟩
    have before : Completes repeated names state :=
      ⟨fun found => completes.known (by
        rw [Std.HashMap.getElem?_insert, if_neg, found]
        simpa using Ne.symm (kept found)), completes.marked⟩
    obtain ⟨value_eq, clear⟩ := renders names before
    refine List.Forall₂.cons ⟨completes.known ?_, value_eq, clear⟩ List.Forall₂.nil
    rw [Std.HashMap.getElem?_insert_self]

end Grown

namespace Hoist

/-- Every run gives names to small expressions only, and its result is as described by any names
that complete those given. -/
def Traces (repeated : Expr κ → Bool) (small : Expr κ → Prop) (action : Hoist κ α)
    (post : (Expr κ → Option Symbol) → α → Prop) : Prop :=
  ∀ before, ∃ made, Grown repeated made before (action.perform before).2 ∧
    (∀ expr ∈ made, small expr) ∧ ∀ names, Completes repeated names (action.perform before).2 →
      post names (action.perform before).1

variable {small : Expr κ → Prop}

theorem traces_pure {value : α} {post : (Expr κ → Option Symbol) → α → Prop}
    (holds : ∀ names, post names value) : Traces repeated small (pure value) post :=
  fun before => ⟨[], Grown.refl before, nofun, fun names _ => holds names⟩

theorem Traces.bind {action : Hoist κ α} {next : α → Hoist κ β}
    {post : (Expr κ → Option Symbol) → α → Prop} {last : (Expr κ → Option Symbol) → β → Prop}
    (first : Traces repeated small action post)
    (second : ∀ value, Traces repeated small (next value) fun names result =>
      post names value → last names result) :
    Traces repeated small (action >>= next) last := by
  intro before
  obtain ⟨made, grown, bounded, holds⟩ := first before
  obtain ⟨more, further, moreBounded, result⟩ := second (action.perform before).1
    (action.perform before).2
  refine ⟨made ++ more, grown.trans further, ?_, ?_⟩
  · intro expr member
    exact (List.mem_append.mp member).elim (bounded expr) (moreBounded expr)
  · intro names completes
    exact result names completes (holds names (further.completes_before completes))

theorem Traces.imp {action : Hoist κ α} {more : Expr κ → Prop}
    {post last : (Expr κ → Option Symbol) → α → Prop} (traces : Traces repeated small action post)
    (bounded : ∀ expr, small expr → more expr) (holds : ∀ names value, post names value →
      last names value) : Traces repeated more action last := by
  intro before
  obtain ⟨made, grown, all, result⟩ := traces before
  exact ⟨made, grown, fun expr member => bounded expr (all expr member),
    fun names completes => holds names _ (result names completes)⟩

theorem traces_mapM {items : List α} {step : α → Hoist κ β}
    {post : (Expr κ → Option Symbol) → α → β → Prop}
    (each : ∀ item ∈ items, Traces repeated small (step item) fun names result =>
      post names item result) :
    Traces repeated small (items.mapM step) fun names results =>
      List.Forall₂ (post names) items results := by
  induction items with
  | nil =>
      rw [List.mapM_nil]
      exact traces_pure fun _ => List.Forall₂.nil
  | cons head tail ih =>
      rw [List.mapM_cons]
      refine (each head List.mem_cons_self).bind fun result => ?_
      have others := ih fun item member => each item (List.mem_cons_of_mem _ member)
      refine others.bind fun results => ?_
      exact traces_pure fun _ rest first => List.Forall₂.cons first rest

end Hoist

open Hoist

theorem forall₂_eq_map {change : α → β} {property : α → Prop} {items : List α} {results : List β}
    (related : List.Forall₂ (fun item result => result = change item ∧ property item)
      items results) :
    results = items.map change ∧ ∀ item ∈ items, property item := by
  induction related with
  | nil => exact ⟨rfl, nofun⟩
  | cons first _ ih =>
      obtain ⟨rfl, holds⟩ := first
      obtain ⟨rfl, rest⟩ := ih
      exact ⟨rfl, List.forall_mem_cons.mpr ⟨holds, rest⟩⟩

def RendersAs (repeated : Expr κ → Bool) (names : Expr κ → Option Symbol) (expr result : Expr κ) :
    Prop :=
  result = expr.render names ∧ ∀ part ∈ expr.written names, isMarked repeated part = false

def RendersBelow (repeated : Expr κ → Bool) (names : Expr κ → Option Symbol)
    (expr result : Expr κ) : Prop :=
  result = expr.renderBelow names ∧
    ∀ part ∈ expr.children.flatMap (Expr.written names), isMarked repeated part = false

theorem rendersAs_named {expr : Expr κ} {symbol : Symbol} (named : names expr = some symbol) :
    RendersAs repeated names expr (.atom (.whole symbol)) := by
  constructor
  · rw [Expr.render_eq, named]
  · rw [Expr.written_eq, named]
    exact nofun

theorem RendersBelow.rendersAs {expr result : Expr κ}
    (renders : RendersBelow repeated names expr result) (unnamed : names expr = none)
    (unmarked : isMarked repeated expr = false) : RendersAs repeated names expr result := by
  obtain ⟨rfl, clear⟩ := renders
  constructor
  · rw [Expr.render_eq, unnamed]
  · rw [Expr.written_unnamed unnamed]
    exact List.forall_mem_cons.mpr ⟨unmarked, clear⟩

theorem traces_shareAs {expr : Expr κ} {rebuild : Hoist κ (Expr κ)}
    (rebuilds : Traces repeated (fun made => sizeOf made < sizeOf expr) rebuild fun names result =>
      RendersBelow repeated names expr result) :
    Traces repeated (fun made => sizeOf made ≤ sizeOf expr) (shareAs repeated expr rebuild)
      fun names result => RendersAs repeated names expr result := by
  intro before
  rw [perform_shareAs]
  obtain ⟨made, grown, bounded, renders⟩ := rebuilds before
  split
  · rename_i marked
    cases found : before.named[expr]? with
    | some symbol =>
        exact ⟨[], Grown.refl before, nofun,
          fun names completes => rendersAs_named (completes.known found)⟩
    | none =>
        -- what has been made on the way is smaller, so the expression has no name yet
        have unknown : (rebuild.perform before).2.named[expr]? = none := by
          rw [← Option.not_isSome_iff_eq_none, grown.known, found]
          rintro (known | member)
          · cases known
          · exact absurd (bounded expr member) (lt_irrefl _)
        have last := Grown.nameTemporary unknown marked renders
        refine ⟨made ++ [expr], grown.trans last, ?_, fun names completes => ?_⟩
        · intro other member
          rcases List.mem_append.mp member with former | latter
          · exact (bounded other former).le
          · exact (List.mem_singleton.mp latter ▸ le_refl _)
        · rw [perform_nameTemporary] at completes ⊢
          exact rendersAs_named (completes.known Std.HashMap.getElem?_insert_self)
  · rename_i unmarked
    rw [Bool.not_eq_true] at unmarked
    refine ⟨made, grown, fun other member => (bounded other member).le, fun names completes => ?_⟩
    exact (renders names completes).rendersAs (completes.marked unmarked) unmarked

theorem traces_shareBelow {expr : Expr κ}
    (each : ∀ child ∈ expr.children, Traces repeated (fun made => sizeOf made ≤ sizeOf child)
      (shareIn repeated child) fun names result => RendersAs repeated names child result) :
    Traces repeated (fun made => sizeOf made < sizeOf expr) (shareBelow repeated expr)
      fun names result => RendersBelow repeated names expr result := by
  unfold shareBelow
  rw [shareAll_eq]
  have inside : ∀ child ∈ expr.children, Traces repeated (fun made => sizeOf made < sizeOf expr)
      (shareIn repeated child) fun names result => RendersAs repeated names child result :=
    fun child member => (each child member).imp
      (fun _ bound => bound.trans_lt (Expr.sizeOf_lt_of_mem_children member)) fun _ _ holds => holds
  refine (traces_mapM inside).bind fun operands => traces_pure fun names parts => ?_
  obtain ⟨rfl, clear⟩ := forall₂_eq_map parts
  refine ⟨rfl, fun part member => ?_⟩
  obtain ⟨child, among, below⟩ := List.mem_flatMap.mp member
  exact clear child among part below

theorem traces_shareIn (expr : Expr κ) :
    Traces repeated (fun made => sizeOf made ≤ sizeOf expr) (shareIn repeated expr)
      fun names result => RendersAs repeated names expr result := by
  induction expr using Expr.induct with
  | step expr ih =>
      rw [shareIn_eq]
      exact traces_shareAs (traces_shareBelow ih)

/-- The value in which the names stand. What is written out and marked is the root of a scalar. -/
def RendersValue (repeated : Expr κ → Bool) (names : Expr κ → Option Symbol)
    (value result : Tensor κ) : Prop :=
  result = value.render names ∧ ∀ part ∈ value.written names, isMarked repeated part = true →
    value.shape.isScalar = true ∧ part ∈ value.entries

theorem traces_shareValue (value : Tensor κ) :
    Traces repeated (fun _ => True) (shareValue repeated value)
      fun names result => RendersValue repeated names value result := by
  unfold shareValue
  split
  · rename_i scalar
    have each : ∀ entry ∈ value.entries, Traces repeated (fun _ => True)
        (shareBelow repeated entry) fun names result => RendersBelow repeated names entry result :=
      fun entry _ => (traces_shareBelow fun child _ => traces_shareIn child).imp
        (fun _ _ => trivial) fun _ _ holds => holds
    refine (traces_mapM each).bind fun entries => traces_pure fun names parts => ?_
    obtain ⟨rfl, clear⟩ := forall₂_eq_map parts
    refine ⟨by rw [Tensor.render, if_pos scalar], fun part member marked => ⟨scalar, ?_⟩⟩
    rw [Tensor.written, if_pos scalar] at member
    obtain ⟨entry, among, inside⟩ := List.mem_flatMap.mp member
    rcases List.mem_cons.mp inside with rfl | below
    · exact among
    · rw [clear entry among part below] at marked
      cases marked
  · rename_i notScalar
    have each : ∀ entry ∈ value.entries, Traces repeated (fun _ => True)
        (shareIn repeated entry) fun names result => RendersAs repeated names entry result :=
      fun entry _ => (traces_shareIn entry).imp (fun _ _ => trivial) fun _ _ holds => holds
    refine (traces_mapM each).bind fun entries => traces_pure fun names parts => ?_
    obtain ⟨rfl, clear⟩ := forall₂_eq_map parts
    refine ⟨by rw [Tensor.render, if_neg notScalar], fun part member marked => ?_⟩
    rw [Tensor.written, if_neg notScalar] at member
    obtain ⟨entry, among, inside⟩ := List.mem_flatMap.mp member
    rw [clear entry among part inside] at marked
    cases marked

end Mechanism.Graph
