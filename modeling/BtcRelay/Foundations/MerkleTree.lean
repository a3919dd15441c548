import Mathlib.Data.Set.Function

/-!
# Merkle trees

A Merkle tree combines its leaves level by level: neighbours are combined, and the last
node of an odd level is combined with itself. A node climbs to the root along a path of
siblings, its position saying on which side each sibling is.

Facts about the root: every leaf climbs to it along the siblings on its way
(`climb_siblings`), and under the usual assumptions on the combining function, whatever
climbs to it is a node of the tree (`mem_nodes_of_climb`), and does so along the siblings
of that node (`exists_level_of_climb`).
-/

namespace MerkleTree

universe u

variable {Hash : Type u} (combine : Hash → Hash → Hash)

def nextLevel : List Hash → List Hash
  | [] => []
  | [last] => [combine last last]
  | left :: right :: rest => combine left right :: nextLevel rest

@[simp]
theorem nextLevel_length (level : List Hash) :
    (nextLevel combine level).length = (level.length + 1) / 2 := by
  induction level using nextLevel.induct with
  | case1 => simp [nextLevel]
  | case2 last => simp [nextLevel]
  | case3 left right rest ih =>
      simp only [nextLevel, List.length_cons, ih]
      omega

def root : List Hash → Option Hash
  | [] => none
  | [node] => some node
  | left :: right :: rest => root (nextLevel combine (left :: right :: rest))
termination_by level => level.length
decreasing_by
  simp only [nextLevel_length, List.length_cons]
  omega

/-- The hash that a node climbs to along a path of siblings. -/
def climb : Hash → ℕ → List Hash → Hash
  | node, _, [] => node
  | node, position, sibling :: siblings =>
      climb (if position % 2 = 0 then combine node sibling else combine sibling node)
        (position / 2) siblings

/-- The sibling of a position in a level; the last node of an odd level is its own. -/
def sibling? (level : List Hash) (position : ℕ) : Option Hash :=
  if position % 2 = 0 then level[position + 1]?.or level[position]? else level[position - 1]?

/-- The siblings on the way from a position to the root. -/
def siblings : List Hash → ℕ → List Hash
  | [], _ => []
  | [_], _ => []
  | left :: right :: rest, position =>
      (sibling? (left :: right :: rest) position).toList ++
        siblings (nextLevel combine (left :: right :: rest)) (position / 2)
termination_by level _ => level.length
decreasing_by
  simp only [nextLevel_length, List.length_cons]
  omega

theorem getElem?_nextLevel {level : List Hash} {position : ℕ} {node : Hash}
    (found : level[position]? = some node) :
    ∃ sibling, sibling? level position = some sibling ∧
      (nextLevel combine level)[position / 2]? =
        some (if position % 2 = 0 then combine node sibling else combine sibling node) := by
  induction level using nextLevel.induct generalizing position with
  | case1 => simp at found
  | case2 last =>
      have only : position = 0 := by
        by_contra positive
        simp [positive] at found
      subst only
      simp only [List.getElem?_cons_zero, Option.some.injEq] at found
      subst found
      exact ⟨last, by simp [sibling?], by simp [nextLevel]⟩
  | case3 left right rest ih =>
      match position with
      | 0 =>
          simp only [List.getElem?_cons_zero, Option.some.injEq] at found
          subst found
          exact ⟨right, by simp [sibling?], by simp [nextLevel]⟩
      | 1 =>
          simp only [List.getElem?_cons_succ, List.getElem?_cons_zero, Option.some.injEq] at found
          subst found
          exact ⟨left, by simp [sibling?], by simp [nextLevel]⟩
      | position + 2 =>
          simp only [List.getElem?_cons_succ] at found
          rcases ih found with ⟨sibling, at_sibling, combined⟩
          have half : (position + 2) / 2 = position / 2 + 1 := by omega
          refine ⟨sibling, ?_, ?_⟩
          · simp only [sibling?] at at_sibling ⊢
            rw [Nat.add_mod_right]
            split at at_sibling
            · rename_i even
              rw [if_pos even]
              simpa only [List.getElem?_cons_succ] using at_sibling
            · rename_i odd
              rw [if_neg odd]
              have shifted : position + 2 - 1 = position - 1 + 1 + 1 := by omega
              rw [shifted]
              simpa only [List.getElem?_cons_succ] using at_sibling
          · rw [half, Nat.add_mod_right]
            simpa only [nextLevel, List.getElem?_cons_succ] using combined

/-- Every leaf climbs to the root along its siblings. -/
theorem climb_siblings {level : List Hash} {position : ℕ} {leaf : Hash}
    (found : level[position]? = some leaf) :
    some (climb combine leaf position (siblings combine level position)) =
      root combine level := by
  induction level using root.induct combine generalizing position leaf with
  | case1 => simp at found
  | case2 node =>
      have only : position = 0 := by
        by_contra positive
        simp [positive] at found
      subst only
      simp only [List.getElem?_cons_zero, Option.some.injEq] at found
      subst found
      simp only [siblings, climb, root]
  | case3 left right rest ih =>
      rcases getElem?_nextLevel combine found with ⟨sibling, at_sibling, combined⟩
      rw [siblings, at_sibling, Option.toList_some, List.singleton_append, climb, root]
      exact ih combined

section Nodes

def innerNodes : List Hash → List Hash
  | [] => []
  | [_] => []
  | left :: right :: rest =>
      nextLevel combine (left :: right :: rest) ++
        innerNodes (nextLevel combine (left :: right :: rest))
termination_by level => level.length
decreasing_by
  simp only [nextLevel_length, List.length_cons]
  omega

/-- The pairs combined to make a level's next one. -/
def levelPairs : List Hash → List (Hash × Hash)
  | [] => []
  | [last] => [(last, last)]
  | left :: right :: rest => (left, right) :: levelPairs rest

def treePairs : List Hash → List (Hash × Hash)
  | [] => []
  | [_] => []
  | left :: right :: rest =>
      levelPairs (left :: right :: rest) ++ treePairs (nextLevel combine (left :: right :: rest))
termination_by level => level.length
decreasing_by
  simp only [nextLevel_length, List.length_cons]
  omega

theorem treePairs_pair (left right : Hash) :
    treePairs combine [left, right] = [(left, right)] := by
  simp only [treePairs, levelPairs, nextLevel, List.append_nil]

/-- The pairs combined on the way of a climb. -/
def climbPairs : Hash → ℕ → List Hash → List (Hash × Hash)
  | _, _, [] => []
  | node, position, sibling :: siblings =>
      let pair := if position % 2 = 0 then (node, sibling) else (sibling, node)
      pair :: climbPairs (combine pair.1 pair.2) (position / 2) siblings

variable {combine}

theorem mem_levelPairs {level : List Hash} {pair : Hash × Hash} (member : pair ∈ levelPairs level) :
    pair.1 ∈ level ∧ pair.2 ∈ level := by
  induction level using levelPairs.induct with
  | case1 => cases member
  | case2 last =>
      rw [levelPairs, List.mem_singleton] at member
      simp [member]
  | case3 left right rest ih =>
      rcases List.mem_cons.mp member with rfl | member
      · simp
      · rcases ih member with ⟨first, second⟩
        simp [first, second]

theorem exists_pair_of_mem_nextLevel {level : List Hash} {node : Hash}
    (member : node ∈ nextLevel combine level) :
    ∃ pair ∈ levelPairs level, combine pair.1 pair.2 = node := by
  induction level using nextLevel.induct with
  | case1 => cases member
  | case2 last =>
      rw [nextLevel, List.mem_singleton] at member
      exact ⟨(last, last), by simp [levelPairs], member.symm⟩
  | case3 left right rest ih =>
      rcases List.mem_cons.mp member with rfl | member
      · exact ⟨(left, right), by simp [levelPairs], rfl⟩
      · rcases ih member with ⟨pair, inRest, combined⟩
        exact ⟨pair, by simp [levelPairs, inRest], combined⟩

theorem exists_pair_of_mem_innerNodes {level : List Hash} {node : Hash}
    (member : node ∈ innerNodes combine level) :
    ∃ pair ∈ treePairs combine level, combine pair.1 pair.2 = node ∧
      (pair.1 ∈ level ∨ pair.1 ∈ innerNodes combine level) ∧
      (pair.2 ∈ level ∨ pair.2 ∈ innerNodes combine level) := by
  induction level using innerNodes.induct combine with
  | case1 => simp [innerNodes] at member
  | case2 only => simp [innerNodes] at member
  | case3 left right rest ih =>
      rw [innerNodes, List.mem_append] at member
      rw [innerNodes, treePairs]
      rcases member with next | above
      · rcases exists_pair_of_mem_nextLevel next with ⟨pair, inLevel, combined⟩
        rcases mem_levelPairs inLevel with ⟨first, second⟩
        exact ⟨pair, List.mem_append_left _ inLevel, combined, Or.inl first, Or.inl second⟩
      · rcases ih above with ⟨pair, inTree, combined, first, second⟩
        exact ⟨pair, List.mem_append_right _ inTree, combined,
          Or.inr (List.mem_append.mpr first), Or.inr (List.mem_append.mpr second)⟩

theorem mem_of_root {level : List Hash} {top : Hash} (isRoot : root combine level = some top) :
    top ∈ level ∨ top ∈ innerNodes combine level := by
  induction level using root.induct combine with
  | case1 => simp [root] at isRoot
  | case2 node =>
      rw [root, Option.some.injEq] at isRoot
      simp [isRoot]
  | case3 left right rest ih =>
      rw [root] at isRoot
      rw [innerNodes]
      exact Or.inr (List.mem_append.mpr (ih isRoot))

/-- Whatever climbs to the root is a node of the tree, if no two pairs combined in the tree and in
the climb collide and no leaf combines a pair of the climb. -/
theorem mem_nodes_of_climb {leaves siblings : List Hash} {node top : Hash} {position : ℕ}
    (isRoot : root combine leaves = some top)
    (collisionFree : Set.InjOn (fun pair : Hash × Hash => combine pair.1 pair.2)
      { pair | pair ∈ treePairs combine leaves ∨ pair ∈ climbPairs combine node position siblings })
    (leafFree : ∀ pair ∈ climbPairs combine node position siblings,
      combine pair.1 pair.2 ∉ leaves)
    (climbs : climb combine node position siblings = top) :
    node ∈ leaves ∨ node ∈ innerNodes combine leaves := by
  induction siblings generalizing node position with
  | nil =>
      rw [climb] at climbs
      rw [climbs]
      exact mem_of_root isRoot
  | cons sibling siblings ih =>
      obtain ⟨pair, pairEq⟩ :
          ∃ pair, pair = if position % 2 = 0 then (node, sibling) else (sibling, node) := ⟨_, rfl⟩
      have combined : climb combine (combine pair.1 pair.2) (position / 2) siblings = top := by
        rw [← climbs, climb, pairEq]
        split <;> rfl
      have pairs : climbPairs combine node position (sibling :: siblings) =
          pair :: climbPairs combine (combine pair.1 pair.2) (position / 2) siblings := by
        rw [climbPairs, pairEq]
      have endpoint : node = pair.1 ∨ node = pair.2 := by
        rw [pairEq]
        split
        · exact Or.inl rfl
        · exact Or.inr rfl
      rw [pairs] at collisionFree leafFree
      have above := ih
        (collisionFree.mono fun other member => member.imp_right (List.mem_cons_of_mem pair))
        (fun other member => leafFree other (List.mem_cons_of_mem pair member)) combined
      rcases above with leaf | inner
      · exact absurd leaf (leafFree pair List.mem_cons_self)
      · -- the pair climbed through is the pair that the tree combines
        rcases exists_pair_of_mem_innerNodes inner with ⟨other, inTree, same, first, second⟩
        have equal : other = pair :=
          collisionFree (Or.inl inTree) (Or.inr List.mem_cons_self) same
        rw [equal] at first second
        rcases endpoint with left | right
        · rw [left]
          exact first
        · rw [right]
          exact second

end Nodes

section Levels

/-- The levels of a tree, from the leaves to the root. -/
def levels : List Hash → List (List Hash)
  | [] => []
  | [node] => [[node]]
  | left :: right :: rest =>
      (left :: right :: rest) :: levels (nextLevel combine (left :: right :: rest))
termination_by level => level.length
decreasing_by
  simp only [nextLevel_length, List.length_cons]
  omega

/-- An index goes the way of a position: it is on the same side at each level. The last node of
an odd level is its own sibling, so there both sides are the same. -/
def SameWay : List Hash → ℕ → ℕ → Prop
  | [], _, _ => True
  | [_], _, _ => True
  | left :: right :: rest, position, index =>
      (index % 2 = position % 2 ∨
        position % 2 = 0 ∧ position + 1 = (left :: right :: rest).length) ∧
      SameWay (nextLevel combine (left :: right :: rest)) (position / 2) (index / 2)
termination_by level _ _ => level.length
decreasing_by
  simp only [nextLevel_length, List.length_cons]
  omega

variable {combine} {leaves level : List Hash} {position index : ℕ} {node top : Hash}

theorem siblings_of_two_le (two : 2 ≤ level.length) (position : ℕ) :
    siblings combine level position =
      (sibling? level position).toList ++ siblings combine (nextLevel combine level) (position / 2) := by
  match level, two with
  | left :: right :: rest, _ => rw [siblings]

theorem sameWay_of_two_le (two : 2 ≤ level.length) :
    SameWay combine level position index ↔
      (index % 2 = position % 2 ∨ position % 2 = 0 ∧ position + 1 = level.length) ∧
        SameWay combine (nextLevel combine level) (position / 2) (index / 2) := by
  match level, two with
  | left :: right :: rest, _ => rw [SameWay]

theorem sibling?_last (found : level[position]? = some node) (even : position % 2 = 0)
    (last : position + 1 = level.length) : sibling? level position = some node := by
  rw [sibling?, if_pos even, List.getElem?_eq_none (by omega), Option.none_or, found]

/-- Only the way of an index matters for the climb. -/
theorem climb_siblings_of_sameWay (found : level[position]? = some node)
    (sameWay : SameWay combine level position index) :
    some (climb combine node index (siblings combine level position)) = root combine level := by
  rw [← climb_siblings combine found]
  induction level, position using siblings.induct combine generalizing node index with
  | case1 => simp at found
  | case2 => simp [siblings, climb]
  | case3 left right rest position ih =>
      rcases getElem?_nextLevel combine found with ⟨sibling, at_sibling, combined⟩
      rw [SameWay] at sameWay
      rcases sameWay with ⟨side, above⟩
      have same : (if index % 2 = 0 then combine node sibling else combine sibling node) =
          if position % 2 = 0 then combine node sibling else combine sibling node := by
        rcases side with same | ⟨even, last⟩
        · rw [same]
        · have own := sibling?_last found even last
          rw [at_sibling, Option.some.injEq] at own
          rw [own, ite_self, ite_self]
      rw [siblings, at_sibling, Option.toList_some, List.singleton_append, climb, climb, same]
      exact ih combined above

theorem root_of_mem_levels (member : level ∈ levels combine leaves) :
    root combine level = root combine leaves := by
  induction leaves using levels.induct combine with
  | case1 => simp [levels] at member
  | case2 node =>
      rw [levels, List.mem_singleton] at member
      rw [member]
  | case3 left right rest ih =>
      rw [levels] at member
      rcases List.mem_cons.mp member with rfl | above
      · rfl
      · rw [ih above, root]

theorem mem_levels_of_root (isRoot : root combine leaves = some top) :
    [top] ∈ levels combine leaves := by
  induction leaves using levels.induct combine with
  | case1 => simp [root] at isRoot
  | case2 node =>
      rw [root, Option.some.injEq] at isRoot
      simp [levels, isRoot]
  | case3 left right rest ih =>
      rw [root] at isRoot
      rw [levels]
      exact List.mem_cons_of_mem _ (ih isRoot)

/-- Every level but the leaves combines the one below it. -/
theorem eq_leaves_or_exists_below (member : level ∈ levels combine leaves) :
    level = leaves ∨ ∃ below ∈ levels combine leaves,
      2 ≤ below.length ∧ level = nextLevel combine below := by
  induction leaves using levels.induct combine with
  | case1 => simp [levels] at member
  | case2 node =>
      rw [levels, List.mem_singleton] at member
      exact Or.inl member
  | case3 left right rest ih =>
      rw [levels] at member ⊢
      rcases List.mem_cons.mp member with rfl | above
      · exact Or.inl rfl
      · right
        rcases ih above with rfl | ⟨below, belowMem, two, rfl⟩
        · exact ⟨_, List.mem_cons_self, by simp, rfl⟩
        · exact ⟨below, List.mem_cons_of_mem _ belowMem, two, rfl⟩

theorem mem_treePairs_of_mem_levels {pair : Hash × Hash} (member : level ∈ levels combine leaves)
    (two : 2 ≤ level.length) (combined : pair ∈ levelPairs level) :
    pair ∈ treePairs combine leaves := by
  induction leaves using levels.induct combine with
  | case1 => simp [levels] at member
  | case2 node =>
      rw [levels, List.mem_singleton] at member
      simp [member] at two
  | case3 left right rest ih =>
      rw [levels] at member
      rw [treePairs, List.mem_append]
      rcases List.mem_cons.mp member with rfl | above
      · exact Or.inl combined
      · exact Or.inr (ih above)

/-- A node of the next level combines the node at twice its position with that node's sibling. -/
theorem exists_pair_of_getElem?_nextLevel (found : (nextLevel combine level)[position]? = some node) :
    ∃ pair ∈ levelPairs level, combine pair.1 pair.2 = node ∧
      level[2 * position]? = some pair.1 ∧ sibling? level (2 * position) = some pair.2 := by
  induction level using nextLevel.induct generalizing position with
  | case1 => simp [nextLevel] at found
  | case2 last =>
      have only : position = 0 := by
        by_contra positive
        simp [nextLevel, positive] at found
      subst only
      exact ⟨(last, last), by simp [levelPairs], by simpa [nextLevel] using found, by simp,
        by simp [sibling?]⟩
  | case3 left right rest ih =>
      cases position with
      | zero =>
          exact ⟨(left, right), by simp [levelPairs], by simpa [nextLevel] using found, by simp,
            by simp [sibling?]⟩
      | succ position =>
          rw [nextLevel, List.getElem?_cons_succ] at found
          rcases ih found with ⟨pair, member, combined, first, second⟩
          refine ⟨pair, List.mem_cons_of_mem _ member, combined, ?_, ?_⟩
          · rw [Nat.mul_add_one]
            exact first
          · rw [sibling?, if_pos (by omega)] at second ⊢
            rw [Nat.mul_add_one]
            exact second

/-- A climb that starts with a pair of a level starts at a position of that level. -/
theorem exists_position_of_pair {sibling : Hash} {pair : Hash × Hash} (two : 2 ≤ level.length)
    (climbed : pair = if index % 2 = 0 then (node, sibling) else (sibling, node))
    (first : level[2 * position]? = some pair.1)
    (second : sibling? level (2 * position) = some pair.2)
    (sameWay : SameWay combine (nextLevel combine level) position (index / 2)) :
    ∃ lower, level[lower]? = some node ∧
      sibling :: siblings combine (nextLevel combine level) position =
        siblings combine level lower ∧
      SameWay combine level lower index := by
  have double : 2 * position / 2 = position := Nat.mul_div_cancel_left _ (by decide)
  by_cases even : index % 2 = 0
  · rw [if_pos even] at climbed
    rw [climbed] at first second
    refine ⟨2 * position, first, ?_, (sameWay_of_two_le two).mpr ⟨Or.inl (by omega), ?_⟩⟩
    · rw [siblings_of_two_le two, second, double]
      rfl
    · rwa [double]
  · rw [if_neg even] at climbed
    rw [climbed] at first second
    cases right : level[2 * position + 1]? with
    | some other =>
        have half : (2 * position + 1) / 2 = position := by omega
        rw [sibling?, if_pos (by omega), right, Option.some_or] at second
        refine ⟨2 * position + 1, right.trans second, ?_,
          (sameWay_of_two_le two).mpr ⟨Or.inl (by omega), by rwa [half]⟩⟩
        rw [siblings_of_two_le two, sibling?, if_neg (by omega), Nat.add_sub_cancel, first, half]
        rfl
    | none =>
        -- the last node of an odd level, climbing on the right of itself
        have last : 2 * position + 1 = level.length := by
          have inRange := (List.getElem?_eq_some_iff.mp first).1
          have outside := List.getElem?_eq_none_iff.mp right
          omega
        have own := sibling?_last first (by omega) last
        rw [own, Option.some.injEq] at second
        refine ⟨2 * position, by rw [first, second], ?_,
          (sameWay_of_two_le two).mpr ⟨Or.inr ⟨by omega, last⟩, by rwa [double]⟩⟩
        rw [siblings_of_two_le two, own, double]
        rfl

/-- What climbs to the root is a node of some level with its siblings, if no two pairs combined in
the tree and in the climb collide and no leaf combines a pair of the climb. -/
theorem exists_level_of_climb {path : List Hash} (isRoot : root combine leaves = some top)
    (collisionFree : Set.InjOn (fun pair : Hash × Hash => combine pair.1 pair.2)
      { pair | pair ∈ treePairs combine leaves ∨ pair ∈ climbPairs combine node index path })
    (leafFree : ∀ pair ∈ climbPairs combine node index path, combine pair.1 pair.2 ∉ leaves)
    (climbs : climb combine node index path = top) :
    ∃ level ∈ levels combine leaves, ∃ position, level[position]? = some node ∧
      path = siblings combine level position ∧ SameWay combine level position index := by
  induction path generalizing node index with
  | nil =>
      rw [climb] at climbs
      rw [climbs]
      exact ⟨[top], mem_levels_of_root isRoot, 0, rfl, by rw [siblings], by rw [SameWay]; trivial⟩
  | cons sibling path ih =>
      obtain ⟨pair, pairEq⟩ :
          ∃ pair, pair = if index % 2 = 0 then (node, sibling) else (sibling, node) := ⟨_, rfl⟩
      have combined : climb combine (combine pair.1 pair.2) (index / 2) path = top := by
        rw [← climbs, climb, pairEq]
        split <;> rfl
      have pairs : climbPairs combine node index (sibling :: path) =
          pair :: climbPairs combine (combine pair.1 pair.2) (index / 2) path := by
        rw [climbPairs, pairEq]
      rw [pairs] at collisionFree leafFree
      rcases ih
        (collisionFree.mono fun other member => member.imp_right (List.mem_cons_of_mem pair))
        (fun other member => leafFree other (List.mem_cons_of_mem pair member)) combined with
        ⟨level, levelMem, position, at_position, rfl, sameWay⟩
      rcases eq_leaves_or_exists_below levelMem with rfl | ⟨below, belowMem, two, rfl⟩
      · exact absurd (List.mem_of_getElem? at_position) (leafFree pair List.mem_cons_self)
      -- the pair climbed through is the pair that the tree combines
      rcases exists_pair_of_getElem?_nextLevel at_position with
        ⟨other, otherMem, same, first, second⟩
      have equal : other = pair :=
        collisionFree (Or.inl (mem_treePairs_of_mem_levels belowMem two otherMem))
          (Or.inr List.mem_cons_self) same
      rw [equal] at first second
      exact ⟨below, belowMem, exists_position_of_pair two pairEq first second sameWay⟩

end Levels

end MerkleTree
