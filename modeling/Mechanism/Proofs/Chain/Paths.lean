import Mathlib.Data.List.Chain
import Mathlib.Data.List.Infix
import Mechanism.Double
import Mechanism.Proofs.Chain.Kinematics

/-!
Paths in chains that can be built. A parent stands before its children, so that there is a path down
to every body, and the joints on it are joints of the chain.

The joints of a path hang on one another, the first of them on the root. There is one such list of
joints to a body, and it is found with any fuel that it does not outrun. What two paths have in
common is the path to the deepest joint on both, behind which they are apart.
-/

namespace Mechanism.Chain

variable {κ : Type} [Scalar κ] {chain later : Chain κ} {body : Option JointId} {id : JointId}
  {ids : List JointId}

/-- A body is a joint of the chain, or the root. -/
def Bears (chain : Chain κ) (body : Option JointId) : Prop :=
  ∀ id, body = some id → id.index < chain.length

theorem bears_of_add {joint : Joint κ} (added : chain.add joint = .ok (id, later)) :
    chain.Bears joint.parent := by
  rintro parent placed
  by_contra beyond
  unfold add at added
  by_cases known : (chain.find? joint.name).isSome = true
  · rw [if_pos known] at added
    cases added
  · rw [if_neg known, placed] at added
    simp only [if_pos (not_lt.mp beyond)] at added
    cases added

theorem Built.bears (built : chain.Built) {joint : Joint κ} (known : chain.joint? id = some joint)
    {parent : JointId} (placed : joint.parent = some parent) : parent.index < id.index := by
  induction built with
  | empty => cases known
  | @add chain later added _ _ adds ih =>
      obtain ⟨_, motion, _, joints⟩ := add_eq_ok adds
      rw [joint?, joints] at known
      rcases lt_or_ge id.index chain.joints.length with before | after
      · rw [List.getElem?_append_left before] at known
        exact ih known
      · rw [List.getElem?_append_right after, List.getElem?_singleton] at known
        split at known
        · cases known
          exact (bears_of_add adds _ placed).trans_le after
        · cases known

theorem Built.exists_ascend (built : chain.Built) {fuel : Nat}
    (within : ∀ id, body = some id → id.index < chain.length ∧ id.index < fuel) :
    ∃ ids, chain.ascend fuel body = .ok ids := by
  induction fuel generalizing body with
  | zero =>
      cases body with
      | none => exact ⟨[], rfl⟩
      | some id => exact absurd (within id rfl).2 (Nat.not_lt_zero _)
  | succ fuel ih =>
      cases body with
      | none => exact ⟨[], rfl⟩
      | some id =>
          obtain ⟨inside, enough⟩ := within id rfl
          have known : chain.joint? id = some chain.joints[id.index] :=
            List.getElem?_eq_getElem inside
          have parents : ∀ parent, chain.joints[id.index].parent = some parent →
              parent.index < chain.length ∧ parent.index < fuel := by
            intro parent placed
            have before := built.bears known placed
            exact ⟨before.trans inside, before.trans_le (Nat.lt_succ_iff.mp enough)⟩
          obtain ⟨ids, above⟩ := ih parents
          refine ⟨id :: ids, ?_⟩
          simp only [ascend, bind_eq_ok, joint_eq_ok]
          exact ⟨_, known, ids, above, rfl⟩

theorem Built.exists_path (built : chain.Built) (bears : chain.Bears body) :
    ∃ ids, chain.path body = .ok ids := by
  have within : ∀ id, body = some id → id.index < chain.length ∧ id.index < chain.length + 1 :=
    fun id same => ⟨bears id same, (bears id same).trans (Nat.lt_succ_self _)⟩
  obtain ⟨ids, ascended⟩ := built.exists_ascend within
  exact ⟨ids.reverse, bind_eq_ok.mpr ⟨ids, ascended, rfl⟩⟩

theorem Ascent.known (ascent : chain.Ascent body ids) :
    ∀ id ∈ ids, ∃ joint, chain.joint? id = some joint := by
  induction ascent with
  | root => simp
  | step known _ ih => exact List.forall_mem_cons.mpr ⟨⟨_, known⟩, ih⟩

theorem known_of_path (found : chain.path body = .ok ids) :
    ∀ id ∈ ids, ∃ joint, chain.joint? id = some joint :=
  fun id member => (path_eq_ok found).known id (List.mem_reverse.mpr member)

theorem exists_joints (known : ∀ id ∈ ids, ∃ joint, chain.joint? id = some joint) :
    ∃ joints, ids.mapM chain.joint = .ok joints := by
  induction ids with
  | nil => exact ⟨[], rfl⟩
  | cons head tail ih =>
      rw [List.forall_mem_cons] at known
      obtain ⟨⟨joint, first⟩, rest⟩ := known
      obtain ⟨joints, found⟩ := ih rest
      refine ⟨joint :: joints, ?_⟩
      rw [List.mapM_cons, joint_eq_ok.mpr first, found]
      rfl

theorem exists_positionOf {frame : Frame κ} (shape : frame.position.shape = .vector 3)
    (known : ∀ id ∈ ids, ∃ joint, chain.joint? id = some joint) :
    ∃ position, chain.positionOf ids frame = .ok position := by
  obtain ⟨joints, found⟩ := exists_joints known
  refine ⟨(joints.foldl Pose.moveBy Pose.start).locate frame.position, ?_⟩
  simp only [positionOf, bind_eq_ok]
  exact ⟨(), checkOffset_eq_ok.mpr shape, joints, found, rfl⟩

/-- The joint is one of the chain, and the body that it moves on is the given one. -/
def Hangs (chain : Chain κ) (parent : Option JointId) (id : JointId) : Prop :=
  ∃ joint, chain.joint? id = some joint ∧ joint.parent = parent

/-- Different joints from one at the root to the body, each the parent of the next. -/
structure WayTo (chain : Chain κ) (body : Option JointId) (ids : List JointId) : Prop where
  distinct : ids.Nodup
  starts : ∀ top, ids.head? = some top → chain.Hangs none top
  linked : ids.IsChain fun parent child => chain.Hangs (some parent) child
  ends : ids.getLast? = body

theorem ascent_cons : chain.Ascent body (id :: ids) ↔
    body = some id ∧ ∃ joint, chain.joint? id = some joint ∧ chain.Ascent joint.parent ids := by
  constructor
  · intro ascent
    cases ascent with
    | step known above => exact ⟨rfl, _, known, above⟩
  · rintro ⟨rfl, joint, known, above⟩
    exact .step known above

theorem ascent_iff : chain.Ascent body ids ↔
    ids.head? = body ∧ (ids.IsChain fun child parent => chain.Hangs (some parent) child) ∧
      ∀ top, ids.getLast? = some top → chain.Hangs none top := by
  induction ids generalizing body with
  | nil =>
      constructor
      · rintro ⟨⟩
        exact ⟨rfl, .nil, nofun⟩
      · rintro ⟨rfl, _, _⟩
        exact .root
  | cons id rest ih =>
      rw [ascent_cons, List.isChain_cons]
      simp only [ih]
      -- the first joint hangs on the next one, or on the root if there is none
      cases rest with
      | nil =>
          simp only [List.head?_nil, List.head?_cons, List.getLast?_singleton, Option.some.injEq,
            List.getLast?_nil]
          constructor
          · rintro ⟨rfl, joint, known, top, _⟩
            exact ⟨rfl, ⟨nofun, .nil⟩, fun _ same => same ▸ ⟨joint, known, top.symm⟩⟩
          · rintro ⟨rfl, _, hangs⟩
            obtain ⟨joint, known, top⟩ := hangs id rfl
            exact ⟨rfl, joint, known, top.symm, .nil, nofun⟩
      | cons next above =>
          simp only [List.head?_cons, List.getLast?_cons_cons]
          constructor
          · rintro ⟨rfl, joint, known, parent, linked, starts⟩
            exact ⟨rfl, ⟨fun _ same => same ▸ ⟨joint, known, parent.symm⟩, linked⟩, starts⟩
          · rintro ⟨rfl, ⟨hangs, linked⟩, starts⟩
            obtain ⟨joint, known, parent⟩ := hangs next rfl
            exact ⟨rfl, joint, known, parent.symm, linked, starts⟩

theorem ascent_reverse : chain.Ascent body ids.reverse ↔ chain.WayTo body ids := by
  constructor
  · intro ascent
    obtain ⟨ends, linked, starts⟩ := ascent_iff.mp ascent
    rw [List.head?_reverse] at ends
    rw [List.isChain_reverse] at linked
    rw [List.getLast?_reverse] at starts
    exact ⟨List.nodup_reverse.mp ascent.nodup, starts, linked, ends⟩
  · intro way
    rw [ascent_iff, List.head?_reverse, List.isChain_reverse, List.getLast?_reverse]
    exact ⟨way.ends, way.linked, way.starts⟩

theorem Ascent.ascend (ascent : chain.Ascent body ids) {fuel : Nat} (enough : ids.length ≤ fuel) :
    chain.ascend fuel body = .ok ids := by
  induction ascent generalizing fuel with
  | root => cases fuel <;> rfl
  | @step id joint rest known above ih =>
      obtain ⟨fuel, rfl⟩ : ∃ less, fuel = less + 1 :=
        ⟨fuel - 1, by rw [List.length_cons] at enough; omega⟩
      simp only [Chain.ascend, bind_eq_ok, joint_eq_ok]
      exact ⟨joint, known, rest, ih (Nat.le_of_succ_le_succ enough), rfl⟩

theorem Ascent.length_le (ascent : chain.Ascent body ids) : ids.length ≤ chain.length := by
  have among : ids ⊆ chain.ids := by
    intro id member
    obtain ⟨joint, known⟩ := ascent.known id member
    obtain ⟨inside, _⟩ := List.getElem?_eq_some_iff.mp known
    exact List.mem_map.mpr ⟨id.index, List.mem_range.mpr inside, rfl⟩
  have count : chain.ids.length = chain.length := by
    rw [Chain.ids, List.length_map, List.length_range]
  exact (ascent.nodup.subperm among).length_le.trans_eq count

theorem path_iff : chain.path body = .ok ids ↔ chain.WayTo body ids := by
  rw [← ascent_reverse]
  constructor
  · exact path_eq_ok
  · intro ascent
    have ascended := ascent.ascend (ascent.length_le.trans (Nat.le_succ _))
    exact bind_eq_ok.mpr ⟨ids.reverse, ascended, congrArg Except.ok ids.reverse_reverse⟩

theorem path_of_begins (found : chain.path body = .ok ids) {upper : List JointId}
    (begins : upper <+: ids) : chain.path upper.getLast? = .ok upper := by
  obtain ⟨lower, rfl⟩ := begins
  obtain rfl | ⟨above, id, rfl⟩ := List.eq_nil_or_concat' upper
  · rfl
  · have ascent := path_eq_ok found
    rw [List.append_assoc, List.singleton_append, List.reverse_append, List.reverse_cons,
      List.append_assoc, List.singleton_append] at ascent
    rw [List.getLast?_concat, path_iff, ← ascent_reverse, List.reverse_concat]
    exact ascent.from_joint

theorem path_of_mem (found : chain.path body = .ok ids) (member : id ∈ ids) :
    ∃ upper, chain.path (some id) = .ok upper ∧ id ∈ upper ∧ upper <+: ids := by
  obtain ⟨above, below, rfl⟩ := List.append_of_mem member
  have begins : above ++ [id] <+: above ++ id :: below := ⟨below, List.append_cons .. ▸ rfl⟩
  refine ⟨above ++ [id], ?_, List.mem_concat_self .., begins⟩
  rw [← path_of_begins found begins, List.getLast?_concat]

theorem prefix_of_parted {shared upper a b : List JointId} (ofFirst : upper <+: shared ++ a)
    (ofSecond : upper <+: shared ++ b)
    (parted : ∀ one other, a.head? = some one → b.head? = some other → one ≠ other) :
    upper <+: shared := by
  induction shared generalizing upper with
  | nil =>
      cases upper with
      | nil => exact List.nil_prefix
      | cons head tail =>
          obtain ⟨restA, rfl⟩ := ofFirst
          obtain ⟨restB, rfl⟩ := ofSecond
          exact absurd rfl (parted head head rfl rfl)
  | cons head tail ih =>
      cases upper with
      | nil => exact List.nil_prefix
      | cons first rest =>
          rw [List.cons_append, List.cons_prefix_cons] at ofFirst ofSecond
          exact List.cons_prefix_cons.mpr ⟨ofFirst.1, ih ofFirst.2 ofSecond.2⟩

/-- The paths to two bodies are a shared one, which ends at the deepest joint on both, and two
branches apart from each other. -/
structure Parts (chain : Chain κ) (one other : Option JointId) (shared a b : List JointId) :
    Prop where
  first : chain.path one = .ok (shared ++ a)
  second : chain.path other = .ok (shared ++ b)
  trunk : chain.path shared.getLast? = .ok shared
  common : ∀ id, id ∈ shared ↔ id ∈ shared ++ a ∧ id ∈ shared ++ b
  deepest : ∀ id ∈ shared, ∃ upper, chain.path (some id) = .ok upper ∧ upper <+: shared
  apart : a.Disjoint b

theorem parts_of_branches {one other : Option JointId} {a b : List JointId}
    (found : chain.branches one other = .ok (a, b)) : ∃ shared, chain.Parts one other shared a b := by
  have disjoint := List.disjoint_of_nodup_append (nodup_branches found)
  simp only [branches, bind_eq_ok] at found
  obtain ⟨first, foundFirst, second, foundSecond, same⟩ := found
  obtain ⟨shared, ofFirst, ofSecond, parted⟩ := dropShared_eq first second
  rw [Except.ok.inj same] at ofFirst ofSecond parted
  subst ofFirst ofSecond
  refine ⟨shared, foundFirst, foundSecond, path_of_begins foundFirst (List.prefix_append ..),
    fun id => ⟨fun member => ⟨List.mem_append_left _ member, List.mem_append_left _ member⟩, ?_⟩,
    fun id member => ?_, disjoint⟩
  · rintro ⟨inFirst, inSecond⟩
    -- the path to a joint on both is at the beginning of both, and so of what they share
    obtain ⟨upper, path, ends, begins⟩ := path_of_mem foundFirst inFirst
    obtain ⟨again, repath, _, rebegins⟩ := path_of_mem foundSecond inSecond
    obtain rfl : upper = again := Except.ok.inj (path.symm.trans repath)
    exact (prefix_of_parted begins rebegins parted).subset ends
  · obtain ⟨upper, path, _, begins⟩ :=
      path_of_mem (path_of_begins foundFirst (List.prefix_append ..)) member
    exact ⟨upper, path, begins⟩

def offer (chain : Chain κ) (joint : Joint κ) : Chain κ :=
  match chain.add joint with
  | .ok (_, later) => later
  | .error _ => chain

/-- The chain of those joints that are accepted, from the first one on. -/
def offered (joints : List (Joint κ)) : Chain κ := joints.foldl offer .empty

theorem Built.offer (built : chain.Built) (joint : Joint κ) : (chain.offer joint).Built := by
  unfold Chain.offer
  split
  · next added => exact built.add added
  · exact built

theorem built_iff : chain.Built ↔ ∃ joints, chain = offered joints := by
  constructor
  · intro built
    induction built with
    | empty => exact ⟨[], rfl⟩
    | @add chain later joint id _ added ih =>
        obtain ⟨joints, rfl⟩ := ih
        refine ⟨joints ++ [joint], ?_⟩
        rw [offered, List.foldl_concat, ← offered, Chain.offer, added]
  · rintro ⟨joints, rfl⟩
    suffices grown : ∀ chain : Chain κ, chain.Built → (joints.foldl Chain.offer chain).Built from
      grown .empty .empty
    induction joints with
    | nil => exact fun _ built => built
    | cons head tail ih => exact fun _ built => ih _ (built.offer head)

/-- Whichever joints are offered, the chain of the accepted ones is a tree: there is one way down to
each body, which the ascent finds without running out of fuel, and the branches to two bodies begin
where the ways to them part. -/
theorem offered_tree (joints : List (Joint κ)) :
    (∀ body, (offered joints).Bears body → ∃ ids, (offered joints).path body = .ok ids ∧
      (∀ others, (offered joints).WayTo body others ↔ others = ids) ∧
      ∀ fuel, ids.length ≤ fuel → (offered joints).ascend fuel body = .ok ids.reverse) ∧
    ∀ one other, (offered joints).Bears one → (offered joints).Bears other →
      ∃ shared a b, (offered joints).branches one other = .ok (a, b) ∧
        (offered joints).Parts one other shared a b := by
  have built : (offered joints).Built := built_iff.mpr ⟨joints, rfl⟩
  constructor
  · intro body bears
    obtain ⟨ids, found⟩ := built.exists_path bears
    refine ⟨ids, found, fun others => ?_, fun fuel enough => ?_⟩
    · rw [← path_iff, found, Except.ok.injEq, eq_comm]
    · exact (path_eq_ok found).ascend (ids.length_reverse.trans_le enough)
  · intro one other bearsOne bearsOther
    obtain ⟨first, foundFirst⟩ := built.exists_path bearsOne
    obtain ⟨second, foundSecond⟩ := built.exists_path bearsOther
    have branched : (offered joints).branches one other = .ok (dropShared first second) := by
      simp only [branches, bind_eq_ok]
      exact ⟨first, foundFirst, second, foundSecond, rfl⟩
    obtain ⟨shared, parts⟩ := parts_of_branches branched
    exact ⟨shared, _, _, branched, parts⟩

namespace Crown

def joint (number : Nat) (name : String) (parent : Option JointId) : Joint Float :=
  ⟨name, .revolute .z, (Coordinate.fresh ⟨3 * number⟩ name).1, parent,
    .ofColumn [.zero, .zero, .zero]⟩

/-- A stem with two twigs, one of which bears a leaf. A joint that comes before its parent and one
with the name of another are refused. -/
def joints : List (Joint Float) :=
  [joint 0 "stem" none, joint 1 "leaf" (some ⟨1⟩), joint 2 "left" (some ⟨0⟩),
    joint 3 "stem" (some ⟨1⟩), joint 4 "right" (some ⟨0⟩), joint 5 "leaf" (some ⟨1⟩)]

theorem length_offered : (offered joints).length = 4 := rfl

end Crown

/-- The leaf and the other twig have the stem in common. -/
theorem crown_tree : (offered Crown.joints).branches (some ⟨3⟩) (some ⟨2⟩) =
      .ok ([⟨1⟩, ⟨3⟩], [⟨2⟩]) ∧
    (offered Crown.joints).Parts (some ⟨3⟩) (some ⟨2⟩) [⟨0⟩] [⟨1⟩, ⟨3⟩] [⟨2⟩] ∧
    ∀ others, (offered Crown.joints).WayTo (some ⟨3⟩) others ↔ others = [⟨0⟩, ⟨1⟩, ⟨3⟩] := by
  obtain ⟨ways, parting⟩ := offered_tree Crown.joints
  have leaf : (offered Crown.joints).Bears (some ⟨3⟩) := by
    rintro _ ⟨⟩
    rw [Crown.length_offered]
    decide
  have right : (offered Crown.joints).Bears (some ⟨2⟩) := by
    rintro _ ⟨⟩
    rw [Crown.length_offered]
    decide
  obtain ⟨ids, found, unique, _⟩ := ways _ leaf
  obtain rfl : [⟨0⟩, ⟨1⟩, ⟨3⟩] = ids := Except.ok.inj found
  obtain ⟨shared, a, b, branched, parts⟩ := parting _ _ leaf right
  obtain ⟨rfl, rfl⟩ : [⟨1⟩, ⟨3⟩] = a ∧ [⟨2⟩] = b := Prod.mk.inj (Except.ok.inj branched)
  have stem : [⟨0⟩] ++ [⟨1⟩, ⟨3⟩] = shared ++ [⟨1⟩, ⟨3⟩] := Except.ok.inj parts.first
  obtain rfl : [⟨0⟩] = shared := List.append_cancel_right stem
  exact ⟨branched, parts, unique⟩

end Mechanism.Chain
