import Mathlib.Data.List.Forall2
import Stencil.Evaluation
import Stencil.Proofs.Confinement
import Stencil.Proofs.OutlineReading
import Stencil.World

/-!
The variable cache and the state of an evaluation. A world mirrors a state if its
cached chains stand, each by itself, as the forests of the state, under the same
names in the same order and with the same flags. Retired chains are cached no
more. A guarded region is enclosed and holds the head of a cached chain only
while the chain is pinned, so caching another value, which destroys the chain
that loses its name or retires it, leaves the region alone.
-/

namespace Stencil

namespace Table

variable {Key Value Other : Type} [DecidableEq Key]

def others (key : Key) (entries : List (Key × Value)) : List (Key × Value) :=
  entries.eraseP fun entry => entry.1 = key

theorem lookup_of_ne {key name : Key} (different : key ≠ name) (value : Value)
    (rest : List (Key × Value)) : ((name, value) :: rest).lookup key = rest.lookup key := by
  have missed : (key == name) = false := beq_eq_false_iff_ne.mpr different
  rw [List.lookup_cons, missed]

theorem putEntry_perm (key : Key) (value : Value) (entries : List (Key × Value)) :
    (putEntry key value entries).Perm ((key, value) :: others key entries) := by
  induction entries with
  | nil => exact .refl _
  | cons entry rest ih =>
      by_cases same : entry.1 = key
      · simp [putEntry, others, same]
      · simp only [putEntry, others, same, if_false, decide_false, List.eraseP_cons, cond_false]
        exact (ih.cons entry).trans (.swap _ _ _)

theorem lookup_perm {key : Key} {value : Value} {entries : List (Key × Value)}
    (found : entries.lookup key = some value) :
    entries.Perm ((key, value) :: others key entries) := by
  induction entries with
  | nil => cases found
  | cons entry rest ih =>
      obtain ⟨name, other⟩ := entry
      by_cases same : name = key
      · subst same
        simp only [List.lookup_cons, beq_self_eq_true] at found
        cases found
        simp [others]
      · rw [lookup_of_ne (Ne.symm same)] at found
        simp only [others, same, decide_false, List.eraseP_cons, cond_false]
        exact ((ih found).cons _).trans (.swap _ _ _)

variable {pairs paired : Key × Value → Key × Other → Prop}
variable {entries : List (Key × Value)} {cells : List (Key × Other)} {key : Key}

theorem lookup_paired (all : List.Forall₂ pairs entries cells)
    (keys : ∀ entry cell, pairs entry cell → entry.1 = cell.1) :
    (entries.lookup key = none ∧ cells.lookup key = none) ∨
      ∃ value other, entries.lookup key = some value ∧ cells.lookup key = some other ∧
        pairs (key, value) (key, other) := by
  induction all with
  | nil => exact Or.inl ⟨rfl, rfl⟩
  | @cons entry cell _ _ first _ ih =>
      obtain ⟨name, value⟩ := entry
      obtain ⟨otherName, other⟩ := cell
      have same : name = otherName := keys _ _ first
      subst same
      by_cases isKey : key = name
      · subst isKey
        exact Or.inr ⟨value, other, by simp, by simp, first⟩
      · simpa only [lookup_of_ne isKey] using ih

-- The first entry of the key is replaced on both sides, or a new one is added to both.
theorem putEntry_paired {value : Value} {other : Other}
    (all : List.Forall₂ pairs entries cells)
    (keys : ∀ entry cell, pairs entry cell → entry.1 = cell.1)
    (kept : ∀ entry ∈ others key entries, ∀ cell, pairs entry cell → paired entry cell)
    (new : paired (key, value) (key, other)) :
    List.Forall₂ paired (putEntry key value entries) (putEntry key other cells) := by
  induction all with
  | nil => exact .cons new .nil
  | @cons entry cell rest cellRest first later ih =>
      have sameKey := keys entry cell first
      by_cases isKey : entry.1 = key
      · have cellKey : cell.1 = key := sameKey.symm.trans isKey
        have rests : others key (entry :: rest) = rest := by simp [others, isKey]
        simp only [putEntry, isKey, cellKey, if_true]
        apply List.Forall₂.cons new
        have known : List.Forall₂ (fun entry cell => entry ∈ rest ∧ pairs entry cell)
            rest cellRest :=
          (List.forall₂_and_left rest cellRest).mpr ⟨fun _ member => member, later⟩
        exact known.imp fun entry cell facts => kept entry (rests.symm ▸ facts.1) cell facts.2
      · have cellKey : cell.1 ≠ key := fun isCell => isKey (sameKey.trans isCell)
        have rests : others key (entry :: rest) = entry :: others key rest := by
          simp [others, isKey]
        rw [rests] at kept
        simp only [putEntry, isKey, cellKey, if_false]
        apply List.Forall₂.cons (kept entry List.mem_cons_self cell first)
        exact ih fun entry member => kept entry (List.mem_cons_of_mem _ member)

omit [DecidableEq Key] in
theorem exists_paired (all : List.Forall₂ pairs entries cells) {entry : Key × Value}
    (member : entry ∈ entries) : ∃ cell ∈ cells, pairs entry cell := by
  induction all with
  | nil => cases member
  | @cons first cell _ _ known _ ih =>
      rcases List.mem_cons.mp member with same | later
      · exact ⟨cell, List.mem_cons_self, same ▸ known⟩
      · obtain ⟨other, inside, related⟩ := ih later
        exact ⟨other, List.mem_cons_of_mem cell inside, related⟩

theorem others_of_absent (absent : entries.lookup key = none) : others key entries = entries := by
  apply List.eraseP_of_forall_not
  intro entry member same
  have isKey : entry.1 = key := of_decide_eq_true same
  have missed := List.lookup_eq_none_iff.mp absent entry member
  simp [isKey] at missed

end Table

namespace Context

variable (context : Context) (name : Option String)

def otherChains : List ElementId :=
  (Table.others name context.cache.entries).filterMap fun entry => entry.2.chain

theorem chains_perm :
    context.chains.Perm ((context.chainOf name).toList ++ context.otherChains name) := by
  cases found : context.cache.get? name with
  | none =>
      have same : Table.others name context.cache.entries = context.cache.entries :=
        Table.others_of_absent found
      simp [chainOf, found, chains, otherChains, same]
  | some cached =>
      have split := (Table.lookup_perm found).filterMap fun entry => entry.2.chain
      cases chain : cached.chain <;> simpa [chainOf, found, chains, otherChains, chain] using split

theorem chains_put (cached : Cached) :
    ({ context with cache := context.cache.put name cached } : Context).chains.Perm
      (cached.chain.toList ++ context.otherChains name) := by
  have split := (Table.putEntry_perm name cached context.cache.entries).filterMap
    fun entry => entry.2.chain
  cases chain : cached.chain <;> simpa [chains, otherChains, chain, Table.put] using split

end Context

structure Shows (store : Store) (entry : Option String × Cached)
    (cell : Option String × Evaluation.Stored) : Prop where
  key : entry.1 = cell.1
  flag : entry.2.readOnly = cell.2.readOnly
  proper : cell.2.forest.Proper
  stands : ∃ ids, store.Planted none none entry.2.chain cell.2.forest ids

namespace World

structure Mirrors (world : World) (state : Evaluation.State) : Prop where
  linked : world.store.Linked
  cached : List.Forall₂ (Shows world.store) world.context.cache.entries state.entries
  distinct : world.context.chains.Nodup
  retired : ∀ chain ∈ world.context.retired,
    chain < world.store.size ∧ chain ∉ world.context.chains

/-- No chain that has its head in the region can be destroyed. -/
structure Guards (world : World) (region : ElementId → Prop) : Prop where
  enclosed : world.store.Enclosed region
  inside : ∀ id, region id → id < world.store.size
  pinned : ∀ chain ∈ world.context.chains, region chain → world.context.isPinned chain = true

structure Undisturbed (world after : World) (region : ElementId → Prop) : Prop where
  cells : ∀ id, region id → after.store.get? id = world.store.get? id
  commands : after.context.commands = world.context.commands
  expanding : after.context.expanding = world.context.expanding
  pins : after.context.pins = world.context.pins
  depth : after.context.depth = world.context.depth

theorem Undisturbed.refl (world : World) (region : ElementId → Prop) :
    Undisturbed world world region :=
  ⟨fun _ _ => rfl, rfl, rfl, rfl, rfl⟩

theorem Undisturbed.trans {world between after : World} {region : ElementId → Prop}
    (first : Undisturbed world between region) (second : Undisturbed between after region) :
    Undisturbed world after region where
  cells := fun id inside => (second.cells id inside).trans (first.cells id inside)
  commands := second.commands.trans first.commands
  expanding := second.expanding.trans first.expanding
  pins := second.pins.trans first.pins
  depth := second.depth.trans first.depth

section Reading

variable {world : World} {state : Evaluation.State} (mirrors : world.Mirrors state)
include mirrors

theorem Mirrors.lookup (name : Option String) :
    (world.context.cache.get? name = none ∧ state.get? name = none) ∨
      ∃ cached stored, world.context.cache.get? name = some cached ∧
        state.get? name = some stored ∧ Shows world.store (name, cached) (name, stored) :=
  Table.lookup_paired mirrors.cached fun _ _ shows => shows.key

theorem Mirrors.readOnly (name : Option String) :
    world.context.readOnly name =
      ((state.get? name).map Evaluation.Stored.readOnly).getD false := by
  rcases mirrors.lookup name with ⟨absent, missing⟩ | ⟨cached, stored, found, known, shows⟩
  · simp [Context.readOnly, absent, missing]
  · simpa [Context.readOnly, found, known] using shows.flag

theorem Mirrors.standing {chain : ElementId} (member : chain ∈ world.context.chains) :
    ∃ forest ids, world.store.Planted none none (some chain) forest ids := by
  obtain ⟨entry, inside, isChain⟩ := List.mem_filterMap.mp member
  obtain ⟨cell, _, shows⟩ := Table.exists_paired mirrors.cached inside
  obtain ⟨ids, planted⟩ := shows.stands
  exact ⟨cell.2.forest, ids, isChain ▸ planted⟩

/-- What is not among the old cells is neither cached nor retired nor guarded. -/
theorem Mirrors.fresh {region : ElementId → Prop} (guards : world.Guards region)
    {head : ElementId} (new : world.store.size ≤ head) :
    head ∉ world.context.chains ∧ head ∉ world.context.retired ∧ ¬ region head := by
  have notOld := Nat.not_lt_of_le new
  refine ⟨?_, ?_, ?_⟩
  · intro cached
    obtain ⟨_, _, planted⟩ := mirrors.standing cached
    exact notOld (planted.inside head planted.start_links.1)
  · intro gone
    exact notOld (mirrors.retired head gone).1
  · intro inside
    exact notOld (guards.inside head inside)

theorem Mirrors.value (name : Option String) :
    (world.context.chainOf name = none ∧ Evaluation.value? state name = none) ∨
      ∃ chain forest ids, world.context.chainOf name = some chain ∧
        Evaluation.value? state name = some forest ∧ chain ∈ world.context.chains ∧
        forest.Proper ∧ world.store.Planted none none (some chain) forest ids := by
  rcases mirrors.lookup name with ⟨absent, missing⟩ | ⟨cached, stored, found, known, shows⟩
  · exact Or.inl ⟨by simp [Context.chainOf, absent], by simp [Evaluation.value?, missing]⟩
  · obtain ⟨ids, planted⟩ := shows.stands
    have isChain : world.context.chainOf name = cached.chain := by simp [Context.chainOf, found]
    have member : ∀ chain, cached.chain = some chain → chain ∈ world.context.chains := by
      intro chain same
      apply (world.context.chains_perm name).symm.subset
      simp [isChain, same]
    -- A chain is missing exactly if the forest that it stands for is empty.
    cases forest : stored.forest with
    | nil =>
        simp only [forest] at planted
        have isValue : Evaluation.value? state name = none := by
          simp [Evaluation.value?, known, forest]
        cases chain : cached.chain with
        | none => exact Or.inl ⟨isChain.trans chain, isValue⟩
        | some id =>
            simp only [chain] at planted
            cases planted
    | cons node body rest =>
        have proper := shows.proper
        simp only [forest] at planted proper
        have isValue : Evaluation.value? state name = some (.cons node body rest) := by
          simp [Evaluation.value?, known, forest]
        cases chain : cached.chain with
        | none =>
            simp only [chain] at planted
            cases planted
        | some id =>
            simp only [chain] at planted
            exact Or.inr ⟨id, _, ids, isChain.trans chain, isValue, member id chain, proper,
              planted⟩

end Reading

end World

end Stencil
