import Stencil.Proofs.SoundStore
import Stencil.Store.Copy

/-!
Editing with checks on. An edit makes elements, parses a text, links, unlinks or
destroys elements, replaces a body, a text or properties, or copies. It names its
elements by their ids and may name any that there are, linked or not, released or
not, however they hang together. Whatever the edits and their order, the store
stays consistent.
-/

namespace Stencil.Store

inductive Content where
  | chain (head : Option ElementId)
  | source (text : String) (first last : Option Int)

inductive Edit where
  | addText (text : String)
  | addNamed (kind : Kind) (name : String)
  | parse (text : String) (first last : Option Int)
  | append (position element : Option ElementId)
  | insert (position element : Option ElementId)
  | remove (element : Option ElementId)
  | destroy (element : Option ElementId)
  | destroyAll (start : Option ElementId)
  | setVariable (owner : Option ElementId) (content : Content)
  | setCommand (owner : Option ElementId) (content : Content)
  | setText (element : Option ElementId) (text : Option String)
  | setProperties (element : Option ElementId) (properties : Option (Table String String))
  | copy (element : ElementId)
  | copyAll (start : Option ElementId)

namespace Edit

def heads : Content → List ElementId
  | .chain head => head.toList
  | .source _ _ _ => []

def mentions : Edit → List ElementId
  | addText _ | addNamed _ _ | parse _ _ _ => []
  | append position element | insert position element => position.toList ++ element.toList
  | remove id | destroy id | destroyAll id | copyAll id => id.toList
  | setVariable owner content | setCommand owner content => owner.toList ++ heads content
  | setText id _ | setProperties id _ => id.toList
  | copy id => [id]

def setContent (store : Store) (kind : Kind) (owner : Option ElementId) :
    Content → Except Fault Outcome
  | .chain head => store.setBody true kind owner head
  | .source text first last => store.setBodyText true kind owner text first last

/-- The store after an edit, refused or not; a fault is a call that gives no answer. -/
def apply (store : Store) : Edit → Except Fault Store
  | addText text => .ok (store.add ⟨.text, some text, {}⟩)
  | addNamed kind name => .ok ((store.addNamed kind name).getD store)
  | parse text first last => Parsed.store <$> store.parse true text first last
  | append position element => Outcome.store <$> store.append true position element
  | insert position element => Outcome.store <$> store.insert true position element
  | remove element => .ok (store.remove element).store
  | destroy element => .ok (store.destroy element).1
  | destroyAll start => .ok (store.destroyAll start)
  | setVariable owner content => Outcome.store <$> setContent store .variable owner content
  | setCommand owner content => Outcome.store <$> setContent store .command owner content
  | setText element text => Outcome.store <$> store.replaceText true element text
  | setProperties element properties =>
      Outcome.store <$> store.replaceProperties true element properties
  | copy element => Prod.fst <$> store.copy element
  | copyAll start => Prod.fst <$> store.copyAll start

def Known (store : Store) (edit : Edit) : Prop := ∀ id ∈ edit.mentions, id < store.size

end Edit

inductive Reachable : Store → Prop where
  | empty : Reachable {}
  | step (store changed : Store) (edit : Edit) : Reachable store → edit.Known store →
      edit.apply store = .ok changed → Reachable changed

section Cases

variable {store : Store}

theorem replaceText_cases {element : Option ElementId} {text : Option String} {outcome : Outcome}
    (ran : store.replaceText true element text = .ok outcome) :
    outcome.store = store ∨ ∃ id text, store.kind? id = some .text ∧
      outcome.store = store.setText id (some text) := by
  cases element with
  | none =>
      cases ran
      exact Or.inl rfl
  | some id =>
      cases text with
      | none =>
          cases ran
          exact Or.inl rfl
      | some text =>
          simp only [replaceText, if_true] at ran
          cases refused : store.kindRefusal .text (some id) with
          | some refusal =>
              rw [refused] at ran
              cases ran
              exact Or.inl (kindRefusal_store refused)
          | none =>
              rw [refused] at ran
              cases ran
              exact Or.inr ⟨id, text, kind_of_accepted refused, rfl⟩

theorem replaceProperties_cases {element : Option ElementId}
    {properties : Option (Table String String)} {outcome : Outcome}
    (ran : store.replaceProperties true element properties = .ok outcome) :
    outcome.store = store ∨ ∃ id properties, outcome.store = store.setProperties id properties := by
  cases element with
  | none =>
      cases ran
      exact Or.inl rfl
  | some id =>
      cases properties with
      | none =>
          cases ran
          exact Or.inl rfl
      | some properties =>
          simp only [replaceProperties, if_true] at ran
          cases refused : store.kindRefusal .command (some id) with
          | some refusal =>
              rw [refused] at ran
              cases ran
              exact Or.inl (kindRefusal_store refused)
          | none =>
              rw [refused] at ran
              cases ran
              exact Or.inr ⟨id, properties, rfl⟩

theorem setBodyText_cases {kind : Kind} {owner : Option ElementId} {text : String}
    {first last : Option Int} {outcome : Outcome}
    (ran : store.setBodyText true kind owner text first last = .ok outcome) :
    outcome.store = store ∨ ∃ host forest grown ids answer, owner = some host ∧
      store.kind? host = some kind ∧ Grown store grown (some store.size) forest ids ∧
      forest.Proper ∧ grown.install true host (some store.size) = .ok answer ∧
      outcome.store = answer.store := by
  simp only [setBodyText, if_true] at ran
  cases refused : store.kindRefusal kind owner with
  | some refusal =>
      rw [refused] at ran
      cases ran
      exact Or.inl (kindRefusal_store refused)
  | none =>
      rw [refused] at ran
      rcases parse_cases store text first last with ⟨failed, report, fails, _, result⟩ |
        ⟨forest, grown, ids, succeeds, grows, proper⟩
      · simp only [fails, ok_bind, result, pure_eq_ok] at ran
        cases ran
        exact Or.inl rfl
      · cases owner with
        | none => cases refused
        | some host =>
            simp only [succeeds, ok_bind, present] at ran
            obtain ⟨answer, installs, done⟩ := bind_eq_ok.mp ran
            obtain rfl := Except.ok.inj done
            exact Or.inr ⟨host, forest, grown, ids, answer, rfl, kind_of_accepted refused, grows,
              proper, installs, rfl⟩

theorem copy_cases {id : ElementId} {copied : Store × Option ElementId}
    (ran : store.copy id = .ok copied) :
    ∃ tree, store.tree? id = some tree ∧ store.plant none none tree = copied := by
  unfold copy at ran
  cases read : store.tree? id with
  | none => simp [read] at ran
  | some tree => exact ⟨tree, rfl, by simpa [read] using ran⟩

theorem copyAll_cases {start : Option ElementId} {copied : Store × Option ElementId}
    (ran : store.copyAll start = .ok copied) :
    ∃ forest, store.forest? start = some forest ∧ store.plant none none forest = copied := by
  unfold copyAll at ran
  cases read : store.forest? start with
  | none => simp [read] at ran
  | some forest => exact ⟨forest, rfl, by simpa [read] using ran⟩

end Cases

section Steps

variable {store : Store} (sound : store.Sound)
include sound

theorem addNamed_sound (kind : Kind) (name : String) :
    ((store.addNamed kind name).getD store).Sound := by
  unfold addNamed
  split
  · rename_i valid
    exact add_sound sound ⟨rfl, fun _ => ⟨name, rfl, valid⟩⟩
  · exact sound

theorem setBodyText_sound {kind : Kind} (noText : kind ≠ .text) {owner : Option ElementId}
    {text : String} {first last : Option Int} {outcome : Outcome}
    (hostInside : ∀ id, owner = some id → id < store.size)
    (ran : store.setBodyText true kind owner text first last = .ok outcome) :
    outcome.store.Sound := by
  rcases setBodyText_cases ran with same |
    ⟨host, forest, grown, ids, answer, isHost, isKind, grows, proper, installs, same⟩
  · exact same ▸ sound
  · have old := hostInside host isHost
    have kept : grown.kind? host = some kind := by
      rw [← isKind, kind?, kind?, grows.kept host old]
    rw [same]
    refine install_sound (sound.grow grows proper) (Nat.lt_trans old grows.start_inside) ?_ kept
      noText installs
    rintro head ⟨⟩
    exact grows.start_inside

theorem setContent_sound {kind : Kind} (noText : kind ≠ .text) {owner : Option ElementId}
    {content : Content} {outcome : Outcome}
    (known : ∀ id ∈ owner.toList ++ Edit.heads content, id < store.size)
    (ran : Edit.setContent store kind owner content = .ok outcome) : outcome.store.Sound := by
  have hostInside : ∀ id, owner = some id → id < store.size := by
    rintro id rfl
    exact known id (by simp)
  cases content with
  | chain head =>
      refine setBody_sound sound noText hostInside ?_ ran
      rintro id rfl
      exact known id (by simp [Edit.heads])
  | source text first last => exact setBodyText_sound sound noText hostInside ran

theorem retext_sound {id : ElementId} (isText : store.kind? id = some .text) (text : String) :
    (store.setText id (some text)).Sound := by
  have same := relabelled_links store id (fun cell => { cell with text := some text })
    fun cell => ⟨rfl, rfl, rfl, rfl⟩
  have kinds : ∀ other, (store.setText id (some text)).kind? other = store.kind? other := by
    intro other
    simp only [kind?, setText, get?_update]
    by_cases here : id = other
    · cases found : store.get? other <;> simp [here]
    · simp [here]
  have elsewhere : ∀ other, id ≠ other →
      (store.setText id (some text)).text other = store.text other := by
    intro other different
    simp [Store.text, setText, get?_update, different]
  refine ⟨sound.linked.of_links same, fun other otherText => ?_, fun other kind isKind noText => ?_,
    fun other isSome => ?_⟩
  · exact (same other).2.2.1.trans (sound.text_bare other (kinds other ▸ otherText))
  · rw [kinds] at isKind
    have different : id ≠ other := by
      rintro rfl
      exact noText (Option.some.inj (isKind.symm.trans isText))
    rw [elsewhere other different]
    exact sound.named other kind isKind noText
  · rw [kinds] at isSome
    by_cases here : id = other
    · subst here
      obtain ⟨cell, found, _⟩ := Option.map_eq_some_iff.mp isText
      simp [Store.text, setText, get?_update, found]
    · rw [elsewhere other here]
      exact sound.worded other isSome

theorem setText_sound {element : Option ElementId} {text : Option String} {outcome : Outcome}
    (ran : store.replaceText true element text = .ok outcome) : outcome.store.Sound := by
  rcases replaceText_cases ran with same | ⟨id, text, isText, changed⟩
  · exact same ▸ sound
  · exact changed ▸ retext_sound sound isText text

theorem described_sound (id : ElementId) (properties : Table String String) :
    (store.setProperties id properties).Sound := by
  have links := relabelled_links store id (fun cell => { cell with properties := properties })
    fun cell => ⟨rfl, rfl, rfl, rfl⟩
  refine sound.relinked (sound.linked.of_links links) (fun other => ?_) fun other isText => ?_
  · exact label_update store id other _ fun _ => ⟨rfl, rfl⟩
  · exact (links other).2.2.1.trans (sound.text_bare other isText)

theorem setProperties_sound {element : Option ElementId}
    {properties : Option (Table String String)} {outcome : Outcome}
    (ran : store.replaceProperties true element properties = .ok outcome) :
    outcome.store.Sound := by
  rcases replaceProperties_cases ran with same | ⟨id, properties, changed⟩
  · exact same ▸ sound
  · exact changed ▸ described_sound sound id properties

theorem Sound.tree_proper {id : ElementId} {tree : Forest} (read : store.tree? id = some tree) :
    tree.Proper := by
  simp only [tree?, Option.bind_eq_bind, Option.bind_eq_some_iff, Option.pure_def,
    Option.some.injEq] at read
  obtain ⟨cell, found, body, bodyRead, rfl⟩ := read
  obtain ⟨proper, bare⟩ := cell_proper sound found
  refine ⟨proper, fun isText => ?_, sound.forestFor_proper _ _ bodyRead, trivial⟩
  rw [bare isText] at bodyRead
  exact (Option.some.inj bodyRead).symm

theorem copy_sound {id : ElementId} {copied : Store × Option ElementId}
    (ran : store.copy id = .ok copied) : copied.1.Sound := by
  obtain ⟨tree, read, rfl⟩ := copy_cases ran
  exact plant_sound sound (sound.tree_proper read)

theorem copyAll_sound {start : Option ElementId} {copied : Store × Option ElementId}
    (ran : store.copyAll start = .ok copied) : copied.1.Sound := by
  obtain ⟨forest, read, rfl⟩ := copyAll_cases ran
  exact plant_sound sound (sound.forestFor_proper _ _ read)

/-- An edit leads from a sound store to a sound one. -/
theorem apply_sound {changed : Store} {edit : Edit} (known : edit.Known store)
    (ran : edit.apply store = .ok changed) : changed.Sound := by
  -- One case for each edit; one that is refused leads back to the same store.
  cases edit with
  | addText text =>
      cases ran
      exact add_sound sound ⟨rfl, fun noText => absurd rfl noText⟩
  | addNamed kind name =>
      cases ran
      exact addNamed_sound sound kind name
  | parse text first last =>
      obtain ⟨parsed, parses, rfl⟩ := map_eq_ok ran
      exact parse_sound sound parses
  | append position element =>
      obtain ⟨outcome, appends, rfl⟩ := map_eq_ok ran
      refine append_sound sound ?_ ?_ appends
      · rintro id rfl
        exact known id (by simp [Edit.mentions])
      · rintro id rfl
        exact known id (by simp [Edit.mentions])
  | insert position element =>
      obtain ⟨outcome, inserts, rfl⟩ := map_eq_ok ran
      refine insert_sound sound ?_ ?_ inserts
      · rintro id rfl
        exact known id (by simp [Edit.mentions])
      · rintro id rfl
        exact known id (by simp [Edit.mentions])
  | remove element =>
      cases ran
      cases element with
      | none => exact sound
      | some id => exact detach_sound sound id
  | destroy element =>
      cases ran
      cases element with
      | none => exact sound
      | some id => exact destroyOne_sound sound id
  | destroyAll start =>
      cases ran
      exact destroyAll_sound sound start
  | setVariable owner content =>
      obtain ⟨outcome, sets, rfl⟩ := map_eq_ok ran
      exact setContent_sound sound (by simp) known sets
  | setCommand owner content =>
      obtain ⟨outcome, sets, rfl⟩ := map_eq_ok ran
      exact setContent_sound sound (by simp) known sets
  | setText element text =>
      obtain ⟨outcome, sets, rfl⟩ := map_eq_ok ran
      exact setText_sound sound sets
  | setProperties element properties =>
      obtain ⟨outcome, sets, rfl⟩ := map_eq_ok ran
      exact setProperties_sound sound sets
  | copy element =>
      obtain ⟨copied, copies, rfl⟩ := map_eq_ok ran
      exact copy_sound sound copies
  | copyAll start =>
      obtain ⟨copied, copies, rfl⟩ := map_eq_ok ran
      exact copyAll_sound sound copies

end Steps

theorem Reachable.sound {store : Store} (reachable : Reachable store) : store.Sound := by
  induction reachable with
  | empty => exact empty_sound
  | step store changed edit _ known ran ih => exact apply_sound ih known ran

/-- Every store that edits lead to is consistent. -/
theorem reachable_consistent {store : Store} (reachable : Reachable store) : store.Consistent :=
  reachable.sound.consistent

/-- A command whose body is a text. -/
theorem reachable_consistent_body :
    let made : Store := ⟨#[⟨⟨.command, some "a", {}⟩, none, none, some 1, none⟩,
      ⟨⟨.text, some "b", {}⟩, none, none, none, some 0⟩]⟩
    Reachable made ∧ made.Consistent := by
  have command : Reachable ⟨#[{ toNode := ⟨.command, some "a", {}⟩ }]⟩ :=
    .step _ _ (.addNamed .command "a") .empty (by simp [Edit.Known, Edit.mentions]) (by rfl)
  have text : Reachable ⟨#[{ toNode := ⟨.command, some "a", {}⟩ },
      { toNode := ⟨.text, some "b", {}⟩ }]⟩ :=
    .step _ _ (.addText "b") command (by simp [Edit.Known, Edit.mentions]) (by rfl)
  have owned := Reachable.step _ _ (.setCommand (some 0) (.chain (some 1))) text
    (by simp [Edit.Known, Edit.mentions, Edit.heads, size]) (by rfl)
  exact ⟨owned, reachable_consistent owned⟩

end Stencil.Store
