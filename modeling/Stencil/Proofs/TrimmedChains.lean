import Stencil.Proofs.Destruction
import Stencil.Proofs.Ownership

/-!
How deep the elements of a chain are nested, and that destruction never nests them
deeper. A trimmed store may have lost elements of its chains: a link then leads to
an element that came later in the same chain, or nowhere. So a chain from an element
on becomes a chain of elements that came there before, with bodies that came in their
bodies before, and neither its height nor its names grow.
-/

namespace Stencil

def Forest.variableNames : Forest → List (Option String)
  | .nil => []
  | .cons node body rest =>
      (if node.kind = .variable then [node.text] else []) ++ body.variableNames ++
        rest.variableNames

namespace Store

open Relation

/-- At most so many levels are nested in the chain from `start` on, and its variables
have these names. -/
inductive Nests (store : Store) (names : Option String → Prop) : Nat → Option ElementId → Prop where
  | nil (height : Nat) : Nests store names height none
  | cons (height : Nat) (id : ElementId) (inside : id < store.size)
      (named : store.kind? id = some .variable → names (store.text id))
      (body : Nests store names height (store.child id))
      (rest : Nests store names (height + 1) (store.next id)) :
      Nests store names (height + 1) (some id)

/-- Elements are what they were, but some may be missing in their chains. -/
structure Trims (store trimmed : Store) : Prop where
  labels : ∀ id label, store.label id = some label → trimmed.label id = some label
  next : ∀ id after, id < store.size → trimmed.next id = some after →
    TransGen store.Follows id after
  child : ∀ id body, id < store.size → trimmed.child id = some body →
    ∃ head, store.child id = some head ∧ store.Onward head body

section Nesting

variable {store trimmed : Store} {names : Option String → Prop} {height : Nat}
variable {start owner before : Option ElementId} {id after : ElementId} {forest : Forest}
variable {ids : List ElementId}

theorem Nests.mono (nests : store.Nests names height start) {more : Nat} (le : height ≤ more) :
    store.Nests names more start := by
  induction nests generalizing more with
  | nil => exact .nil more
  | cons height id inside named _ _ ihBody ihRest =>
      obtain ⟨more, rfl⟩ : ∃ less, more = less + 1 := ⟨more - 1, by omega⟩
      exact .cons more id inside named (ihBody (by omega)) (ihRest le)

theorem Nests.inside (nests : store.Nests names height (some id)) : id < store.size := by
  cases nests with
  | cons _ _ inside => exact inside

theorem Nests.level (nests : store.Nests names height (some id)) :
    ∃ below, height = below + 1 ∧ store.Nests names below (store.child id) ∧
      (store.kind? id = some .variable → names (store.text id)) := by
  cases nests with
  | cons below _ _ named body => exact ⟨below, rfl, body, named⟩

theorem Nests.onward (nests : store.Nests names height (some id)) (onward : store.Onward id after) :
    store.Nests names height (some after) := by
  induction onward with
  | refl => exact nests
  | tail _ next ih =>
      cases ih with
      | cons _ _ _ _ _ rest => exact next ▸ rest

-- Over the chain as it was: what is left of it comes in it from some element on.
theorem Nests.trims (nests : store.Nests names height start) (trims : Trims store trimmed) :
    trimmed.Nests names height start := by
  have later : ∀ head, start = some head → ∀ after, store.Onward head after →
      trimmed.Nests names height (some after) := by
    induction nests with
    | nil => rintro _ ⟨⟩
    | cons height id inside named body rest ihBody ihRest =>
        rintro _ ⟨⟩ after onward
        have whole : store.Nests names (height + 1) (some id) :=
          .cons height id inside named body rest
        have behind : ∀ other, TransGen store.Follows id other →
            trimmed.Nests names (height + 1) (some other) := by
          intro other walk
          obtain ⟨first, next, onward⟩ := TransGen.head'_iff.mp walk
          exact ihRest first next other onward
        rcases reflTransGen_iff_eq_or_transGen.mp onward with same | walk
        · subst same
          obtain ⟨label, known⟩ := exists_label inside
          have still := trims.labels after label known
          refine .cons height after (inside_of_label still) ?_ ?_ ?_
          · rw [kind?_eq_label, text_eq_label, still, ← known, ← kind?_eq_label, ← text_eq_label]
            exact named
          · cases isBody : trimmed.child after with
            | none => exact .nil height
            | some body =>
                obtain ⟨head, isHead, within⟩ := trims.child after body inside isBody
                exact ihBody head isHead body within
          · cases isNext : trimmed.next after with
            | none => exact .nil _
            | some next => exact behind next (trims.next after next inside isNext)
        · exact behind after walk
  cases start with
  | none => exact .nil height
  | some head => exact later head rfl head .refl

theorem nests_of_forestFor (count : Nat) (read : store.forestFor count start = some forest)
    (low : forest.height ≤ height) (named : ∀ name ∈ forest.variableNames, names name) :
    store.Nests names height start := by
  induction count generalizing start forest height with
  | zero =>
      cases start with
      | none => exact .nil height
      | some id => cases read
  | succ count ih =>
      cases start with
      | none => exact .nil height
      | some id =>
          simp only [Store.forestFor] at read
          split at read
          · cases read
          · rename_i cell found
            obtain ⟨body, bodyRead, later⟩ := Option.bind_eq_some_iff.mp read
            obtain ⟨rest, restRead, done⟩ := Option.bind_eq_some_iff.mp later
            cases done
            simp only [Forest.height] at low
            simp only [Forest.variableNames, List.mem_append] at named
            obtain ⟨height, rfl⟩ : ∃ less, height = less + 1 := ⟨height - 1, by omega⟩
            have links := links_of_cell found
            refine .cons height id (inside_of_get? found) ?_ ?_ ?_
            · intro isVariable
              have isKind : cell.kind = .variable := by simpa [kind?, found] using isVariable
              have isText : store.text id = cell.text := by simp [text, found]
              rw [isText]
              exact named cell.text (Or.inl (Or.inl (by simp [isKind])))
            · rw [links.2.2.1]
              exact ih bodyRead (by omega) fun name member => named name (Or.inl (Or.inr member))
            · rw [links.1]
              exact ih restRead (by omega) fun name member => named name (Or.inr member)

/-- What nests has an end, and stands as a forest that is no higher. -/
theorem Linked.planted_of_nests (linked : store.Linked) (nests : store.Nests names height start)
    (leads : ∀ id, start = some id → store.parent id = owner ∧ store.prev id = before) :
    ∃ forest ids, store.Planted owner before start forest ids ∧ forest.height ≤ height ∧
      ∀ name ∈ forest.variableNames, names name := by
  induction nests generalizing owner before with
  | nil => exact ⟨.nil, [], .nil _ _, Nat.zero_le _, by simp [Forest.variableNames]⟩
  | cons height id inside named _ _ ihBody ihRest =>
      obtain ⟨cell, found⟩ := exists_cell store id inside
      have links := links_of_cell found
      obtain ⟨rfl, rfl⟩ := leads id rfl
      obtain ⟨body, bodyIds, bodyPlanted, bodyLow, bodyNamed⟩ :=
        ihBody (fun first isChild => (linked.first id first).mp isChild)
      obtain ⟨rest, restIds, restPlanted, restLow, restNamed⟩ :=
        ihRest (fun after isNext => ⟨(linked.siblings id after isNext).symm,
          (linked.next_prev id after).mp isNext⟩)
      rw [links.2.2.1] at bodyPlanted
      rw [links.1] at restPlanted
      refine ⟨.cons cell.toNode body rest, _, .cons _ _ cell.next cell.child id cell.toNode body
        rest bodyIds restIds ?_ bodyPlanted restPlanted, ?_, ?_⟩
      · rw [found, links.2.1, links.2.2.2]
      · simp only [Forest.height]
        omega
      · intro name member
        simp only [Forest.variableNames, List.mem_append] at member
        rcases member with (own | inBody) | inRest
        · have isKind : cell.kind = .variable := by
            by_contra other
            simp [other] at own
          have isName : name = cell.text := by simpa [isKind] using own
          have known := named (by simp [kind?, found, isKind])
          simpa [text, found, isName] using known
        · exact bodyNamed name inBody
        · exact restNamed name inRest

theorem Linked.forest_of_nests (linked : store.Linked) (nests : store.Nests names height start) :
    ∃ forest, store.forest? start = some forest ∧ forest.height ≤ height ∧
      ∀ name ∈ forest.variableNames, names name := by
  have leads : ∀ id, start = some id →
      store.parent id = start.bind store.parent ∧ store.prev id = start.bind store.prev := by
    rintro id rfl
    exact ⟨rfl, rfl⟩
  obtain ⟨forest, ids, planted, low, named⟩ := linked.planted_of_nests nests leads
  exact ⟨forest, planted.forest?, low, named⟩

end Nesting

section Trimming

variable {store between trimmed : Store}

theorem Trims.refl (store : Store) : Trims store store :=
  ⟨fun _ _ => id, fun _ _ _ next => .single next, fun _ body _ isBody => ⟨body, isBody, .refl⟩⟩

theorem Trims.inside (trims : Trims store trimmed) {id : ElementId} (inside : id < store.size) :
    id < trimmed.size := by
  obtain ⟨label, known⟩ := exists_label inside
  exact inside_of_label (trims.labels id label known)

theorem Linked.inside_of_walk (linked : store.Linked) {id after : ElementId}
    (walk : TransGen store.Follows id after) : after < store.size := by
  obtain ⟨before, _, next⟩ := TransGen.tail'_iff.mp walk
  exact inside_of_prev ((linked.next_prev before after).mp next)

theorem Trims.walk (trims : Trims store trimmed) (linked : store.Linked) {id after : ElementId}
    (inside : id < store.size) (walk : TransGen trimmed.Follows id after) :
    TransGen store.Follows id after := by
  induction walk with
  | single next => exact trims.next _ _ inside next
  | tail _ next ih => exact ih.trans (trims.next _ _ (linked.inside_of_walk ih) next)

theorem Trims.trans (linked : store.Linked) (first : Trims store between)
    (second : Trims between trimmed) : Trims store trimmed where
  labels := fun id label known => second.labels id label (first.labels id label known)
  next := fun id after inside isNext =>
    first.walk linked inside (second.next id after (first.inside inside) isNext)
  child := by
    intro id body inside isBody
    obtain ⟨middle, isMiddle, onward⟩ := second.child id body (first.inside inside) isBody
    obtain ⟨head, isHead, within⟩ := first.child id middle inside isMiddle
    refine ⟨head, isHead, ?_⟩
    rcases reflTransGen_iff_eq_or_transGen.mp onward with same | walk
    · exact same ▸ within
    · have middleInside : middle < store.size := by
        rcases reflTransGen_iff_eq_or_transGen.mp within with same | walk
        · exact same ▸ inside_of_parent ((linked.first id head).mp isHead).1
        · exact linked.inside_of_walk walk
      exact within.trans (first.walk linked middleInside walk).to_reflTransGen

theorem Grown.trims {start : Option ElementId} {forest : Forest} {ids : List ElementId}
    (grows : Grown store trimmed start forest ids) : Trims store trimmed where
  labels := by
    intro id label known
    rw [← known, Store.label, grows.kept id (inside_of_label known), ← Store.label]
  next := fun id after inside isNext => .single ((grows.links inside).1.symm.trans isNext)
  child := fun id body inside isBody =>
    ⟨body, (grows.links inside).2.2.1.symm.trans isBody, .refl⟩

variable (linked : store.Linked)
include linked

theorem destroyOne_trims (id : ElementId) : Trims store (store.destroyOne id) where
  labels := fun other label known => ((destroyOne_pruned linked id).label other).trans known
  next := by
    intro other after _ isNext
    rcases (destroyOne_links linked id other).1 with same | gone
    · rw [same, (detach_reads linked id).next] at isNext
      split at isNext
      · cases isNext
      · split at isNext
        · rename_i isPrev
          exact .tail (.single ((linked.next_prev other id).mpr isPrev)) isNext
        · exact .single isNext
    · rw [gone] at isNext
      cases isNext
  child := by
    intro other body _ isBody
    rcases (destroyOne_links linked id other).2 with same | gone
    · rw [same, (detach_reads linked id).child] at isBody
      split at isBody
      · rename_i isHead
        exact ⟨id, isHead, .single isBody⟩
      · exact ⟨body, isBody, .refl⟩
    · rw [gone] at isBody
      cases isBody

theorem destroyAllFor_trims (count : Nat) (start : Option ElementId) :
    Trims store (store.destroyAllFor count start) := by
  induction count generalizing store start with
  | zero => exact .refl store
  | succ count ih =>
      cases start with
      | none => exact .refl store
      | some id =>
          exact (destroyOne_trims linked id).trans linked (ih (destroyOne_linked linked id) _)

theorem destroyAll_trims (start : Option ElementId) : Trims store (store.destroyAll start) :=
  destroyAllFor_trims linked _ start

omit linked in
/-- What holds of an element if it does of all behind it holds of every one. -/
theorem Linked.induct_behind (linked : store.Linked) {property : ElementId → Prop}
    (step : ∀ id, (∀ after, TransGen store.Follows id after → property after) → property id)
    (id : ElementId) : property id := by
  have backward : ¬ Circular (fun after before => store.Follows before after) := by
    rintro ⟨point, round⟩
    exact linked.straight ⟨point, transGen_swap.mp round⟩
  have exhausted : WellFounded (fun after before => store.Follows before after) :=
    straight_wellFounded store.size
      (fun after before next => inside_of_prev ((linked.next_prev before after).mp next)) backward
  induction id using exhausted.transGen.induction with
  | _ id ih => exact step id fun after walk => ih after (transGen_swap.mpr walk)

end Trimming

end Store

end Stencil
