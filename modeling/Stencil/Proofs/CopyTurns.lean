import Stencil.Proofs.Planting
import Stencil.Proofs.ScanLoops

/-!
A copy as the loop that it stands for. A chain is copied from its first member to its last,
each copy linked behind the one before it, and members with a body wait on a stack. The
body of the member that came last is copied next, with all its bodies, before those that
waited longer. So when the loop comes back to the stack that it found, the chain and
everything below it stands in new cells, and of the old cells only the one that leads to
the copy has a link more. Nothing bounds the turns beforehand.
-/

namespace Stencil.Store

def clone (store : Store) (id : ElementId) : Except Fault (Store × ElementId) :=
  match store.node? id with
  | some node => .ok (store.add node, store.size)
  | none => .error .noElement

def follow (store : Store) (tail copy : ElementId) : Store :=
  (store.setPrev copy (some tail)).setNext tail (some copy)

def join (store : Store) (tail : Option ElementId) (copy : ElementId) : Store :=
  match tail with
  | none => store
  | some tail => store.follow tail copy

def attach (store : Store) (owner copy : ElementId) (tail : Option ElementId) : Store :=
  let owned := store.setParent copy (some owner)
  match tail with
  | none => owned.setChild owner (some copy)
  | some tail => owned.follow tail copy

structure Copying where
  store : Store
  /-- Elements whose bodies wait for it, each with its copy; the last one comes first. -/
  waiting : List (ElementId × ElementId)
  /-- The member that is copied next. -/
  node : Option ElementId
  owner : ElementId
  tail : Option ElementId

def copyTurn : Copying → Except Fault (Turn Copying Store)
  | ⟨store, waiting, some id, owner, tail⟩ => do
      let (cloned, copy) ← store.clone id
      let linked := cloned.attach owner copy tail
      let waiting := if (linked.child id).isSome then (id, copy) :: waiting else waiting
      pure (.again ⟨linked, waiting, linked.next id, owner, some copy⟩)
  | ⟨store, (source, copy) :: waiting, none, _, _⟩ =>
      .ok (.again ⟨store, waiting, store.child source, copy, none⟩)
  | ⟨store, [], none, _, _⟩ => .ok (.done store)

def Copies (store : Store) (id : ElementId) (answer : Store × ElementId) : Prop :=
  ∃ cloned, store.clone id = .ok (cloned, answer.2) ∧
    Ends copyTurn ⟨cloned, [(id, answer.2)], none, answer.2, none⟩ (.ok answer.1)

/-- The elements from one on are copied one by one, and each copy is linked behind the
one before it. -/
inductive CopiesAll : Store → Option ElementId → Option ElementId → Option ElementId →
    Store × Option ElementId → Prop where
  | done (store : Store) (head tail : Option ElementId) :
      CopiesAll store none head tail (store, head)
  | next (store copied : Store) (id copy : ElementId) (head tail : Option ElementId)
      (answer : Store × Option ElementId) :
      Copies store id (copied, copy) →
      CopiesAll (copied.join tail copy) ((copied.join tail copy).next id)
        (if tail.isNone then some copy else head) (some copy) answer →
      CopiesAll store (some id) head tail answer

def hang (store : Store) (owner tail : Option ElementId) : Option ElementId → Store
  | none => store
  | some copy =>
      match tail, owner with
      | some tail, _ => store.setNext tail (some copy)
      | none, some owner => store.setChild owner (some copy)
      | none, none => store

/-- A forest was put into new cells, and one link leads to it. -/
structure Copied (store copied : Store) (owner tail link : Option ElementId) (forest : Forest)
    (cells : List ElementId) : Prop where
  planted : copied.Planted owner tail link forest cells
  old : ∀ id, id < store.size → copied.get? id = (store.hang owner tail link).get? id
  size : store.size ≤ copied.size
  cells : ∀ id : Nat, id ∈ cells ↔ store.size ≤ id ∧ id < copied.size

section Links

variable (store : Store) (owner tail link : Option ElementId)

theorem get?_hang_elsewhere {id : ElementId} (notTail : tail ≠ some id)
    (notOwner : tail = none → owner ≠ some id) :
    (store.hang owner tail link).get? id = store.get? id := by
  cases link with
  | none => rfl
  | some copy =>
      cases tail with
      | some last => exact get?_update_elsewhere store last id _ fun same => notTail (same ▸ rfl)
      | none =>
          cases owner with
          | none => rfl
          | some host =>
              exact get?_update_elsewhere store host id _ fun same => notOwner rfl (same ▸ rfl)

theorem get?_hang_tail {last : ElementId} {cell : Element} (found : store.get? last = some cell)
    (noNext : cell.next = none) :
    (store.hang owner (some last) link).get? last = some { cell with next := link } := by
  cases link with
  | none => simpa [hang, ← noNext] using found
  | some copy => simp [hang, setNext, get?_update, found]

theorem get?_hang_owner {host : ElementId} {cell : Element} (found : store.get? host = some cell)
    (noChild : cell.child = none) :
    (store.hang (some host) none link).get? host = some { cell with child := link } := by
  cases link with
  | none => simpa [hang, ← noChild] using found
  | some copy => simp [hang, setChild, get?_update, found]

theorem Copied.nil : Copied store store owner tail none .nil [] where
  planted := .nil owner tail
  old := fun _ _ => rfl
  size := Nat.le_refl _
  cells := fun _ => ⟨nofun, fun between => absurd between.2 (Nat.not_lt_of_le between.1)⟩

variable {store owner tail link}
variable {copied : Store} {forest : Forest} {cells : List ElementId}

theorem Copied.elsewhere (copies : Copied store copied owner tail link forest cells)
    {id : ElementId} (inside : id < store.size) (notTail : tail ≠ some id)
    (notOwner : tail = none → owner ≠ some id) : copied.get? id = store.get? id :=
  (copies.old id inside).trans (get?_hang_elsewhere store owner tail link notTail notOwner)

theorem Copied.grown (copies : Copied store copied none none link forest cells) :
    Grown store copied link forest cells where
  kept := fun _ inside => copies.elsewhere inside nofun nofun
  planted := copies.planted
  fresh := fun id member => ((copies.cells id).mp member).1
  all := fun id new inside => (copies.cells id).mpr ⟨new, inside⟩

end Links

section Members

variable {store : Store} {node : Node} {tail : Option ElementId}

theorem attach_cells (node : Node) {owner : ElementId} (ownerInside : owner < store.size)
    (tailInside : ∀ id, tail = some id → id < store.size) :
    ((store.add node).attach owner store.size tail).size = store.size + 1 ∧
    ((store.add node).attach owner store.size tail).get? store.size =
      some ⟨node, none, tail, none, some owner⟩ ∧
    ∀ id, id < store.size → ((store.add node).attach owner store.size tail).get? id =
      (store.hang (some owner) tail (some store.size)).get? id := by
  have newest := get?_add store node store.size
  have notOwner : owner ≠ store.size := Nat.ne_of_lt ownerInside
  rw [if_pos rfl] at newest
  cases tail with
  | none =>
      refine ⟨by simp [attach, size_add], ?_, fun id old => ?_⟩
      · simp [attach, setChild, setParent, get?_update, newest, notOwner]
      · have different : store.size ≠ id := Nat.ne_of_gt old
        simp [attach, hang, setChild, setParent, get?_update, get?_add, different, different.symm]
  | some last =>
      have notTail : last ≠ store.size := Nat.ne_of_lt (tailInside last rfl)
      refine ⟨by simp [attach, follow, size_add], ?_, fun id old => ?_⟩
      · simp [attach, follow, setNext, setPrev, setParent, get?_update, newest, notTail]
      · have different : store.size ≠ id := Nat.ne_of_gt old
        simp [attach, follow, hang, setNext, setPrev, setParent, get?_update, get?_add, different,
          different.symm]

/-- A member was copied, then what stands behind it and then what stands below. -/
theorem Copied.cons {owner tail next child : Option ElementId} {added between copied : Store}
    {body rest : Forest} {bodyCells restCells : List ElementId}
    (size : added.size = store.size + 1)
    (newest : added.get? store.size = some ⟨node, none, tail, none, owner⟩)
    (old : ∀ id, id < store.size →
      added.get? id = (store.hang owner tail (some store.size)).get? id)
    (behind : Copied added between owner (some store.size) next rest restCells)
    (below : Copied between copied (some store.size) none child body bodyCells) :
    Copied store copied owner tail (some store.size) (.cons node body rest)
      (store.size :: (bodyCells ++ restCells)) := by
  have behindSize := behind.size
  have belowSize := below.size
  have elsewhere : ∀ id, id < between.size → store.size ≠ id →
      copied.get? id = between.get? id := fun _ inside different =>
    below.elsewhere inside nofun fun _ same => different (Option.some.inj same)
  refine ⟨?_, fun id inside => ?_, by omega, fun id => ?_⟩
  · have linked := (behind.old store.size (by omega)).trans
      (get?_hang_tail added owner next newest rfl)
    have found := (below.old store.size (by omega)).trans
      (get?_hang_owner between child linked rfl)
    refine .cons owner tail next child store.size node body rest bodyCells restCells found
      below.planted (behind.planted.kept fun id member => ?_)
    have fresh := (behind.cells id).mp member
    exact elsewhere id fresh.2 (by omega)
  · have different : store.size ≠ id := Nat.ne_of_gt inside
    have older : id < added.size := by omega
    rw [elsewhere id (Nat.lt_of_lt_of_le older behindSize) different, behind.elsewhere older
      (fun same => different (Option.some.inj same)) nofun, old id inside]
  · rw [List.mem_cons, List.mem_append, below.cells, behind.cells, size]
    omega

end Members

/-- Between two chains nothing but the store and the stack decides what comes of the loop. -/
def Resumes (store : Store) (waiting : List (ElementId × ElementId))
    (result : Except Fault Store) : Prop :=
  ∀ owner tail, Ends copyTurn ⟨store, waiting, none, owner, tail⟩ result

section Loop

variable {store : Store} {sourceOwner before start : Option ElementId} {forest : Forest}
variable {ids : List ElementId}

theorem resumes_done (store : Store) : Resumes store [] (.ok store) :=
  fun _ _ => .done _ store rfl

theorem Resumes.pop {source copy : ElementId} {waiting : List (ElementId × ElementId)}
    {result : Except Fault Store}
    (ends : Ends copyTurn ⟨store, waiting, store.child source, copy, none⟩ result) :
    Resumes store ((source, copy) :: waiting) result :=
  fun _ _ => .again _ _ result rfl ends

/-- A turn clones a member, and puts it on the stack if it has a body. -/
theorem member_turn {id owner : ElementId} {tail : Option ElementId} {cell : Element}
    (found : store.get? id = some cell) (ownerInside : owner < store.size)
    (tailInside : ∀ id, tail = some id → id < store.size) (notTail : tail ≠ some id)
    (notOwner : owner ≠ id) :
    ∃ added : Store, added.size = store.size + 1 ∧
      added.get? store.size = some ⟨cell.toNode, none, tail, none, some owner⟩ ∧
      (∀ other, other < store.size →
        added.get? other = (store.hang (some owner) tail (some store.size)).get? other) ∧
      ∀ waiting, copyTurn ⟨store, waiting, some id, owner, tail⟩ =
        .ok (.again ⟨added,
          if cell.child.isSome then (id, store.size) :: waiting else waiting, cell.next, owner,
          some store.size⟩) := by
  obtain ⟨size, newest, old⟩ := attach_cells cell.toNode ownerInside tailInside
  refine ⟨_, size, newest, old, fun waiting => ?_⟩
  have stays := (old id (inside_of_get? found)).trans
    (get?_hang_elsewhere _ _ _ _ notTail fun _ same => notOwner (Option.some.inj same))
  have links := links_of_cell (stays.trans found)
  have cloned : store.clone id = .ok (store.add cell.toNode, store.size) := by
    simp [clone, node?, found]
  simp only [copyTurn, cloned, ok_bind, pure_eq_ok, links.1, links.2.2.1]

-- By induction on the forest, behind first and then below, as the stack has it. The stack
-- that waits meanwhile may be any.
theorem copyTurn_copies (planted : store.Planted sourceOwner before start forest ids)
    {owner : ElementId} {tail : Option ElementId} (ownerInside : owner < store.size)
    (tailInside : ∀ id, tail = some id → id < store.size)
    (apart : ∀ id ∈ ids, tail ≠ some id ∧ owner ≠ id) :
    ∃ copied link cells, Copied store copied (some owner) tail link forest cells ∧
      ∀ waiting result, Resumes copied waiting result →
        Ends copyTurn ⟨store, waiting, start, owner, tail⟩ result := by
  induction forest generalizing store sourceOwner before start ids owner tail with
  | nil =>
      cases planted
      exact ⟨store, none, [], .nil .., fun waiting result resumes => resumes owner tail⟩
  | cons node body rest ihBody ihRest =>
      have inside := planted.inside
      cases planted with
      | cons _ _ next child id _ _ _ bodyIds restIds found bodyPlanted restPlanted =>
          have inBody : ∀ other ∈ bodyIds, other ∈ id :: (bodyIds ++ restIds) := fun other member =>
            List.mem_cons_of_mem id (List.mem_append_left restIds member)
          have inRest : ∀ other ∈ restIds, other ∈ id :: (bodyIds ++ restIds) := fun other member =>
            List.mem_cons_of_mem id (List.mem_append_right bodyIds member)
          have newer : ∀ other ∈ id :: (bodyIds ++ restIds), store.size ≠ other :=
            fun other member => Nat.ne_of_gt (inside other member)
          have here := apart id List.mem_cons_self
          obtain ⟨added, addedSize, newest, old, turn⟩ :=
            member_turn found ownerInside tailInside here.1 here.2
          have grows : ∀ other, other < store.size → other < added.size := fun other older =>
            Nat.lt_of_lt_of_eq (Nat.lt_succ_of_lt older) addedSize.symm
          have copyInside : store.size < added.size :=
            Nat.lt_of_succ_le (Nat.le_of_eq addedSize.symm)
          have kept : ∀ other ∈ id :: (bodyIds ++ restIds),
              added.get? other = store.get? other := by
            intro other member
            have away := apart other member
            rw [old other (inside other member), get?_hang_elsewhere _ _ _ _ away.1
              fun _ isOwner => away.2 (Option.some.inj isOwner)]
          -- What stands behind comes first, since the body waits on the stack.
          obtain ⟨between, restLink, restCells, behind, restEnds⟩ :=
            @ihRest added _ _ _ _ (restPlanted.kept fun other member =>
                kept other (inRest other member)) owner (some store.size) (grows owner ownerInside)
              (fun other isTail => Option.some.inj isTail ▸ copyInside) fun other member =>
                ⟨fun isTail => newer other (inRest other member) (Option.some.inj isTail),
                  (apart other (inRest other member)).2⟩
          have stays : ∀ other ∈ id :: (bodyIds ++ restIds),
              between.get? other = store.get? other := by
            intro other member
            have older := grows other (inside other member)
            rw [behind.elsewhere older
              (fun isTail => newer other member (Option.some.inj isTail)) nofun]
            exact kept other member
          obtain ⟨copied, bodyLink, bodyCells, below, bodyEnds⟩ :
              ∃ copied link cells, Copied between copied (some store.size) none link body cells ∧
                ∀ waiting result, Resumes copied waiting result → Resumes between
                  (if child.isSome then (id, store.size) :: waiting else waiting) result := by
            have source : between.child id = child :=
              (links_of_cell ((stays id List.mem_cons_self).trans found)).2.2.1
            cases child with
            | none =>
                cases bodyPlanted
                exact ⟨between, none, [], .nil .., fun _ _ resumes => resumes⟩
            | some first =>
                obtain ⟨copied, bodyLink, bodyCells, below, bodyEnds⟩ :=
                  @ihBody between _ _ _ _ (bodyPlanted.kept fun other member =>
                      stays other (inBody other member)) store.size none
                    (Nat.lt_of_lt_of_le copyInside behind.size) nofun
                    fun other member => ⟨nofun, newer other (inBody other member)⟩
                refine ⟨copied, bodyLink, bodyCells, below, fun waiting result resumes => ?_⟩
                have ends := bodyEnds waiting result resumes
                rw [← source] at ends
                exact .pop ends
          exact ⟨copied, some store.size, _, .cons addedSize newest old behind below,
            fun waiting result resumes => .again _ _ result (turn waiting)
              (restEnds _ result (bodyEnds waiting result resumes))⟩

theorem copies_tree {id : ElementId} {cell : Element} {body : Forest}
    (found : store.get? id = some cell)
    (planted : store.Planted (some id) none cell.child body ids) :
    ∃ copied cells, Copies store id (copied, store.size) ∧
      Copied store copied none none (some store.size) (.cons cell.toNode body .nil) cells := by
  let added := store.add cell.toNode
  have size : added.size = store.size + 1 := size_add store cell.toNode
  have newest : added.get? store.size = some { toNode := cell.toNode } :=
    (get?_add store cell.toNode store.size).trans (if_pos rfl)
  have old : ∀ other, other < store.size → added.get? other = store.get? other :=
    fun other inside => (get?_add store cell.toNode other).trans (if_neg (Nat.ne_of_lt inside))
  have source := planted.kept fun other member => old other (planted.inside other member)
  obtain ⟨copied, link, cells, below, ends⟩ := @copyTurn_copies added _ _ _ _ _ source store.size
    none (Nat.lt_of_succ_le (Nat.le_of_eq size.symm)) nofun
    fun other member => ⟨nofun, Nat.ne_of_gt (planted.inside other member)⟩
  refine ⟨copied, _, ⟨added, by simp [clone, node?, found, added], ?_⟩,
    .cons size newest (fun other inside => ?_) (.nil added none (some store.size)) below⟩
  · have source : added.child id = cell.child :=
      (links_of_cell ((old id (inside_of_get? found)).trans found)).2.2.1
    have start := ends [] _ (resumes_done copied)
    rw [← source] at start
    exact Resumes.pop start store.size none
  · exact (old other inside).trans (get?_hang_elsewhere store none none _ nofun nofun).symm

theorem join_cells {copied : Store} {node : Node} {child tail : Option ElementId}
    (grows : ∀ id, id < store.size → copied.get? id = store.get? id)
    (newest : copied.get? store.size = some ⟨node, none, none, child, none⟩)
    (tailInside : ∀ id, tail = some id → id < store.size) :
    (copied.join tail store.size).size = copied.size ∧
    (copied.join tail store.size).get? store.size = some ⟨node, none, tail, child, none⟩ ∧
    (∀ id, store.size < id → (copied.join tail store.size).get? id = copied.get? id) ∧
    ∀ id, id < store.size → (copied.join tail store.size).get? id =
      (store.hang none tail (some store.size)).get? id := by
  cases tail with
  | none => exact ⟨rfl, newest, fun _ _ => rfl, grows⟩
  | some last =>
      have older := tailInside last rfl
      have notTail : last ≠ store.size := Nat.ne_of_lt older
      refine ⟨by simp [join, follow], ?_, fun id later => ?_, fun id inside => ?_⟩
      · simp [join, follow, setNext, setPrev, get?_update, newest, notTail]
      · have notLast : last ≠ id := Nat.ne_of_lt (Nat.lt_trans older later)
        have notCopy : store.size ≠ id := Nat.ne_of_lt later
        simp [join, follow, setNext, setPrev, get?_update, notLast, notCopy]
      · have notCopy : store.size ≠ id := Nat.ne_of_gt inside
        simp [join, follow, hang, setNext, setPrev, get?_update, notCopy, grows id inside]

theorem Copied.newest {copied : Store} {node : Node} {body : Forest} {cells : List ElementId}
    (copies : Copied store copied none none (some store.size) (.cons node body .nil) cells) :
    ∃ child, copied.get? store.size = some ⟨node, none, none, child, none⟩ := by
  cases copies.planted with
  | cons _ _ _ child _ _ _ _ _ _ found _ lone =>
      cases lone
      exact ⟨child, found⟩

theorem Copied.onward {tail next : Option ElementId} {alone copied : Store} {node : Node}
    {body rest : Forest} {treeCells restCells : List ElementId}
    (tailInside : ∀ id, tail = some id → id < store.size)
    (first : Copied store alone none none (some store.size) (.cons node body .nil) treeCells)
    (behind : Copied (alone.join tail store.size) copied none (some store.size) next rest
      restCells) :
    ∃ cells, Copied store copied none tail (some store.size) (.cons node body rest) cells := by
  have grows := first.grown
  have fresh := first.cells
  have nodup := first.planted.nodup
  cases first.planted with
  | cons _ _ _ child _ _ _ _ bodyCells nilCells newest below lone =>
      cases lone
      rw [List.append_nil] at fresh nodup
      obtain ⟨size, linked, later, old⟩ := join_cells grows.kept newest tailInside
      have aloneInside : store.size < alone.size :=
        ((fresh store.size).mp List.mem_cons_self).2
      have behindSize := behind.size
      have elsewhere : ∀ id, id < alone.size → store.size ≠ id →
          copied.get? id = (alone.join tail store.size).get? id := fun id inside different =>
        behind.elsewhere (Nat.lt_of_lt_of_eq inside size.symm)
          (fun same => different (Option.some.inj same)) nofun
      refine ⟨store.size :: (bodyCells ++ restCells), ?_, fun id inside => ?_, by omega,
        fun id => ?_⟩
      · have found := (behind.old store.size (Nat.lt_of_lt_of_eq aloneInside size.symm)).trans
          (get?_hang_tail _ none next linked rfl)
        refine .cons none tail next child store.size node body rest bodyCells restCells found
          (below.kept fun id member => ?_) behind.planted
        have within := (fresh id).mp (List.mem_cons_of_mem _ member)
        have different : store.size ≠ id := fun same => (List.nodup_cons.mp nodup).1 (same ▸ member)
        exact (elsewhere id within.2 different).trans
          (later id (Nat.lt_of_le_of_ne within.1 different))
      · have different : store.size ≠ id := Nat.ne_of_gt inside
        exact (elsewhere id (Nat.lt_trans inside aloneInside) different).trans (old id inside)
      · have own := fresh id
        rw [List.mem_cons] at own
        rw [List.mem_cons, List.mem_append, ← or_assoc, own, behind.cells, size]
        omega

/-- The copies of a chain are linked to a chain by themselves. -/
theorem copiesAll_chain (planted : store.Planted sourceOwner before start forest ids)
    {tail : Option ElementId} (tailInside : ∀ id, tail = some id → id < store.size)
    (apart : ∀ id ∈ ids, tail ≠ some id) :
    ∃ copied link cells, Copied store copied none tail link forest cells ∧
      (∀ id, start = some id → link = some store.size) ∧
      ∀ head, CopiesAll store start head tail
        (copied, if tail.isNone then link.or head else head) := by
  induction forest generalizing store sourceOwner before start ids tail with
  | nil =>
      cases planted
      refine ⟨store, none, [], .nil .., nofun, fun head => ?_⟩
      cases tail <;> exact .done store head _
  | cons node body rest _ ihRest =>
      have inside := planted.inside
      cases planted with
      | cons _ _ next child id _ _ _ bodyIds restIds found bodyPlanted restPlanted =>
          obtain ⟨alone, treeCells, copies, first⟩ := copies_tree found bodyPlanted
          have grows := first.grown
          obtain ⟨_, newest⟩ := first.newest
          obtain ⟨size, _, _, old⟩ := join_cells grows.kept newest tailInside
          have copyInside : store.size < (alone.join tail store.size).size :=
            Nat.lt_of_lt_of_eq (inside_of_get? newest) size.symm
          have kept : ∀ other ∈ id :: (bodyIds ++ restIds),
              (alone.join tail store.size).get? other = store.get? other := by
            intro other member
            exact (old other (inside other member)).trans
              (get?_hang_elsewhere store none tail _ (apart other member) fun _ => nofun)
          have inRest : ∀ other ∈ restIds, other ∈ id :: (bodyIds ++ restIds) := fun other member =>
            List.mem_cons_of_mem id (List.mem_append_right bodyIds member)
          obtain ⟨copied, link, restCells, behind, _, ends⟩ :=
            @ihRest (alone.join tail store.size) _ _ _ _ (restPlanted.kept fun other member =>
                kept other (inRest other member)) (some store.size)
              (fun other isTail => Option.some.inj isTail ▸ copyInside) fun other member isTail =>
                Nat.ne_of_gt (inside other (inRest other member)) (Option.some.inj isTail)
          obtain ⟨cells, chain⟩ := first.onward tailInside behind
          refine ⟨copied, some store.size, cells, chain, fun _ _ => rfl,
            fun head => .next _ _ _ _ _ _ _ copies ?_⟩
          have onward : (alone.join tail store.size).next id = next :=
            (links_of_cell ((kept id List.mem_cons_self).trans found)).1
          rw [onward]
          cases tail <;> exact ends _

end Loop

end Stencil.Store
