import Stencil.Proofs.Accounting
import Stencil.Proofs.SoundStore
import Stencil.Proofs.TreeCalls

/-!
The tree of a parse. Its elements say the outline of the span that was parsed, so
they account for every character there, and what holds of the outline holds of
them. Each link within the tree is answered by its counterpart, none leads out of
it, and nothing stands before or above its head.
-/

namespace Stencil

/-- An empty span has one empty text; any other is accounted for in normal form. -/
structure Forest.Lossless (source : Source) (span : Span) (forest : Forest) : Prop where
  empty : span.start = span.stop → forest = .cons ⟨.text, some "", {}⟩ .nil .nil
  accounts : span.start < span.stop → forest.Accounts source span.start span.stop
  normal : span.start < span.stop → forest.Normal

theorem Outline.read_lossless {source : Source} {span : Span} (inside : span.stop ≤ source.size)
    {forest : Forest} (read : Outline.read source span = .ok forest) :
    forest.Lossless source span where
  empty := fun same => by
    rw [read_empty source (Nat.le_of_eq same.symm)] at read
    exact (Except.ok.inj read).symm
  accounts := fun room => readFor_accounts _ span inside room read
  normal := fun room => (readFor_accounts _ span inside room read).normal

namespace Store

structure Answering (store : Store) (ids : List ElementId) : Prop where
  next : ∀ id ∈ ids, ∀ after, store.next id = some after →
    after ∈ ids ∧ store.prev after = some id ∧ store.parent after = store.parent id
  prev : ∀ id ∈ ids, ∀ before, store.prev id = some before →
    before ∈ ids ∧ store.next before = some id
  child : ∀ id ∈ ids, ∀ below, store.child id = some below →
    below ∈ ids ∧ store.prev below = none ∧ store.parent below = some id
  parent : ∀ id ∈ ids, ∀ owner, store.parent id = some owner →
    owner ∈ ids ∧ (store.prev id = none → store.child owner = some id)

theorem Planted.answering {store : Store} {start : Option ElementId} {forest : Forest}
    {ids : List ElementId} (planted : store.Planted none none start forest ids) :
    store.Answering ids where
  next := fun id member => (planted.forward id member).1
  prev := fun _ member => (planted.answered member).1
  child := fun id member => (planted.forward id member).2
  parent := fun id member owner owned => by
    refine ⟨?_, fun first => ((planted.answered member).2 owner owned first).2⟩
    rcases planted.owned id member with unowned | ⟨other, inside, isParent⟩
    · rw [unowned] at owned
      cases owned
    · rw [isParent] at owned
      exact Option.some.inj owned ▸ inside

theorem Consistent.sound {store : Store} (consistent : store.Consistent) : store.Sound where
  linked := consistent.linked
  text_bare := consistent.text_bare
  named := consistent.named
  worded := consistent.worded

/-- A parse that succeeds gives a tree that accounts for every character of its
range and is in normal form. Its links answer each other and leave those of the
store in order, and no call of the parse on the tree was refused. -/
theorem parse_accounts (checks : Bool) (store : Store) (text : String) (first last : Option Int)
    (span : Span) (begins : first.getD 0 = span.start)
    (ends : last.getD ((Source.ofString text).size - 1) + 1 = span.stop)
    (ordered : span.start ≤ span.stop) (inside : span.stop ≤ (Source.ofString text).size)
    {parsed : Parsed} {head : ElementId} (ran : store.parse checks text first last = .ok parsed)
    (succeeds : parsed.result = .ok head) :
    ∃ forest ids, Grown store parsed.store (some head) forest ids ∧
      forest.Lossless (Source.ofString text) span ∧
      parsed.store.Answering ids ∧ parsed.store.prev head = none ∧
      parsed.store.parent head = none ∧ (store.Consistent → parsed.store.Consistent) ∧
      ∃ calls, parseSpanNoting checks (Source.ofString text) store span =
        .ok (List.replicate calls .ok, parsed.store, head) := by
  rw [parse_eq checks store text first last span begins ends ordered inside] at ran
  rcases parseSpan_spec checks store inside with ⟨forest, grown, ids, read, spanRan, grows⟩ |
    ⟨failure, _, spanRan⟩
  · rw [spanRan] at ran
    obtain rfl := Except.ok.inj ran
    obtain rfl := Except.ok.inj succeeds
    have proper := ((Outline.read_settles _ inside).of_ok read).1
    have start := grows.planted.start_links
    obtain ⟨calls, noted⟩ := parseSpanNoting_granted checks store inside
    rw [spanRan] at noted
    exact ⟨forest, ids, grows, Outline.read_lossless inside read, grows.planted.answering,
      start.2.1, start.2.2, fun consistent => (consistent.sound.grow grows proper).consistent,
      calls, noted⟩
  · rw [spanRan] at ran
    obtain rfl := Except.ok.inj ran
    cases succeeds

/-- A range with blanks around a command that has properties and a variable inside. -/
theorem parse_accounts_nested :
    let text := "a \x7b\x7bb(k=v) \x7b\x7bc$ d\x7d\x7d \x7d\x7d"
    ∃ parsed, Store.parse true {} text (some 1) none = .ok parsed ∧ parsed.result = .ok 0 ∧
      ∃ forest ids, Grown {} parsed.store (some 0) forest ids ∧
        forest.Lossless (Source.ofString text) ⟨1, 22⟩ ∧ parsed.store.Answering ids := by
  have succeeds : ∃ parsed, Store.parse true {} "a \x7b\x7bb(k=v) \x7b\x7bc$ d\x7d\x7d \x7d\x7d"
      (some 1) none = .ok parsed ∧ parsed.result = .ok 0 := ⟨_, rfl, rfl⟩
  obtain ⟨parsed, ran, isHead⟩ := succeeds
  obtain ⟨forest, ids, grows, lossless, answering, _⟩ := parse_accounts true {} _ (some 1) none
    ⟨1, 22⟩ (by decide) (by decide) (by decide) (by decide) ran isHead
  exact ⟨parsed, ran, isHead, forest, ids, grows, lossless, answering⟩

end Store

end Stencil
