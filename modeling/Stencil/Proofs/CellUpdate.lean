import Stencil.Store.Release

/-!
What a store reads after a write. A write changes one cell, and of that cell one
link, so every other reading stays as it was. The readings of an id without a
cell are empty before and after; a link that is read shows that there is a cell.
-/

namespace Stencil.Store

variable (store : Store) (id other : ElementId) (link : Option ElementId)

theorem get?_update (change : Element → Element) :
    (store.update id change).get? other =
      if id = other then (store.get? other).map change else store.get? other := by
  simp only [get?, update, Array.getElem?_modify]

theorem get?_update_elsewhere (change : Element → Element) (different : id ≠ other) :
    (store.update id change).get? other = store.get? other := by
  rw [get?_update, if_neg different]

@[simp] theorem size_update (change : Element → Element) :
    (store.update id change).size = store.size := by
  simp [size, update]

theorem get?_eq_none : store.get? id = none ↔ store.size ≤ id := by
  simp [get?, size]

theorem exists_cell (inside : id < store.size) : ∃ cell, store.get? id = some cell := by
  cases found : store.get? id with
  | none => exact absurd ((get?_eq_none store id).mp found) (Nat.not_le.mpr inside)
  | some cell => exact ⟨cell, rfl⟩

variable {store id} in
theorem inside_of_get? {cell : Element} (found : store.get? id = some cell) :
    id < store.size := by
  apply Nat.lt_of_not_le
  intro outside
  rw [(get?_eq_none store id).mpr outside] at found
  cases found

theorem read_update {Value : Type} (read : Element → Option Value) (change : Element → Element)
    (kept : ∀ cell, read (change cell) = read cell) :
    ((store.update id change).get? other).bind read = (store.get? other).bind read := by
  rw [get?_update]
  by_cases same : id = other
  · cases found : store.get? other <;> simp [same, kept]
  · simp [same]

theorem write_update {Value : Type} (read : Element → Option Value) (change : Element → Element)
    (value : Option Value) (written : ∀ cell, read (change cell) = value)
    (inside : id < store.size) :
    ((store.update id change).get? other).bind read =
      if id = other then value else (store.get? other).bind read := by
  obtain ⟨cell, found⟩ := exists_cell store id inside
  rw [get?_update]
  by_cases same : id = other
  · subst same
    simp [found, written]
  · simp [same]

section Links

variable {store id other link}

theorem inside_of_read {Value : Type} {read : Element → Option Value} {value : Value}
    (reading : (store.get? id).bind read = some value) : id < store.size := by
  obtain ⟨cell, found, _⟩ := Option.bind_eq_some_iff.mp reading
  exact inside_of_get? found

theorem inside_of_next (linked : store.next id = some other) : id < store.size :=
  inside_of_read linked

theorem inside_of_prev (linked : store.prev id = some other) : id < store.size :=
  inside_of_read linked

theorem inside_of_child (linked : store.child id = some other) : id < store.size :=
  inside_of_read linked

theorem inside_of_parent (linked : store.parent id = some other) : id < store.size :=
  inside_of_read linked

variable (inside : id < store.size)
include inside

theorem next_setNext :
    (store.setNext id link).next other = if id = other then link else store.next other :=
  write_update store id other Element.next _ link (fun _ => rfl) inside

theorem prev_setPrev :
    (store.setPrev id link).prev other = if id = other then link else store.prev other :=
  write_update store id other Element.prev _ link (fun _ => rfl) inside

theorem child_setChild :
    (store.setChild id link).child other = if id = other then link else store.child other :=
  write_update store id other Element.child _ link (fun _ => rfl) inside

theorem parent_setParent :
    (store.setParent id link).parent other = if id = other then link else store.parent other :=
  write_update store id other Element.parent _ link (fun _ => rfl) inside

end Links

@[simp] theorem size_setNext : (store.setNext id link).size = store.size := size_update ..

@[simp] theorem prev_setNext : (store.setNext id link).prev other = store.prev other :=
  read_update store id other Element.prev _ fun _ => rfl

@[simp] theorem child_setNext : (store.setNext id link).child other = store.child other :=
  read_update store id other Element.child _ fun _ => rfl

@[simp] theorem parent_setNext : (store.setNext id link).parent other = store.parent other :=
  read_update store id other Element.parent _ fun _ => rfl

@[simp] theorem size_setPrev : (store.setPrev id link).size = store.size := size_update ..

@[simp] theorem next_setPrev : (store.setPrev id link).next other = store.next other :=
  read_update store id other Element.next _ fun _ => rfl

@[simp] theorem child_setPrev : (store.setPrev id link).child other = store.child other :=
  read_update store id other Element.child _ fun _ => rfl

@[simp] theorem parent_setPrev : (store.setPrev id link).parent other = store.parent other :=
  read_update store id other Element.parent _ fun _ => rfl

@[simp] theorem size_setChild : (store.setChild id link).size = store.size := size_update ..

@[simp] theorem next_setChild : (store.setChild id link).next other = store.next other :=
  read_update store id other Element.next _ fun _ => rfl

@[simp] theorem prev_setChild : (store.setChild id link).prev other = store.prev other :=
  read_update store id other Element.prev _ fun _ => rfl

@[simp] theorem parent_setChild : (store.setChild id link).parent other = store.parent other :=
  read_update store id other Element.parent _ fun _ => rfl

@[simp] theorem size_setParent : (store.setParent id link).size = store.size := size_update ..

@[simp] theorem next_setParent : (store.setParent id link).next other = store.next other :=
  read_update store id other Element.next _ fun _ => rfl

@[simp] theorem prev_setParent : (store.setParent id link).prev other = store.prev other :=
  read_update store id other Element.prev _ fun _ => rfl

@[simp] theorem child_setParent : (store.setParent id link).child other = store.child other :=
  read_update store id other Element.child _ fun _ => rfl

def label (store : Store) (id : ElementId) : Option (Kind × Option String) :=
  (store.get? id).map fun cell => (cell.kind, cell.text)

theorem kind?_eq_label : store.kind? id = (store.label id).map Prod.fst := by
  simp [kind?, label, Function.comp_def]

theorem text_eq_label : store.text id = (store.label id).bind Prod.snd := by
  cases found : store.get? id <;> simp [text, label, found]

theorem inside_of_label {store : Store} {id : ElementId} {label : Kind × Option String}
    (known : store.label id = some label) : id < store.size := by
  obtain ⟨_, found, _⟩ := Option.map_eq_some_iff.mp known
  exact inside_of_get? found

theorem exists_label {store : Store} {id : ElementId} (inside : id < store.size) :
    ∃ label, store.label id = some label := by
  obtain ⟨cell, found⟩ := exists_cell store id inside
  exact ⟨(cell.kind, cell.text), by simp [label, found]⟩

theorem label_update (change : Element → Element)
    (kept : ∀ cell, (change cell).kind = cell.kind ∧ (change cell).text = cell.text) :
    (store.update id change).label other = store.label other := by
  rw [label, get?_update]
  by_cases same : id = other
  · cases found : store.get? other <;> simp [label, same, found, kept]
  · simp [label, same]

@[simp] theorem label_setNext : (store.setNext id link).label other = store.label other :=
  label_update store id other _ fun _ => ⟨rfl, rfl⟩

@[simp] theorem label_setPrev : (store.setPrev id link).label other = store.label other :=
  label_update store id other _ fun _ => ⟨rfl, rfl⟩

@[simp] theorem label_setChild : (store.setChild id link).label other = store.label other :=
  label_update store id other _ fun _ => ⟨rfl, rfl⟩

@[simp] theorem label_setParent : (store.setParent id link).label other = store.label other :=
  label_update store id other _ fun _ => ⟨rfl, rfl⟩

end Stencil.Store
