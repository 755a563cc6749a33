import Stencil.Proofs.Bookkeeping
import Stencil.Proofs.TrimmedChains

/-!
What an operation on the cache lets go of. A value that is cached in place of another
one, and a pin that ends, shed at most one chain that the context knows: if nothing pins
it, it is destroyed. Nothing else changes in the store, and no chain but the offered one
comes to be known.
-/

namespace Stencil

theorem Table.mem_of_lookup {Key Value : Type} [DecidableEq Key] {key : Key} {value : Value}
    {entries : List (Key × Value)} (found : entries.lookup key = some value) :
    (key, value) ∈ entries := by
  obtain ⟨before, after, rfl, _⟩ := List.lookup_eq_some_iff.mp found
  simp

theorem Table.get?_put {Key Value : Type} [DecidableEq Key] (table : Table Key Value)
    (key other : Key) (value : Value) :
    (table.put key value).get? other = if other = key then some value else table.get? other := by
  obtain ⟨entries⟩ := table
  change (putEntry key value entries).lookup other = _
  induction entries with
  | nil =>
      by_cases same : other = key
      · simp [putEntry, same]
      · simp [putEntry, lookup_of_ne same, same, get?]
  | cons entry rest ih =>
      obtain ⟨name, old⟩ := entry
      by_cases isName : other = name
      · subst isName
        by_cases same : other = key <;> simp [putEntry, same, get?]
      · have later : (⟨(name, old) :: rest⟩ : Table Key Value).get? other =
            (⟨rest⟩ : Table Key Value).get? other := lookup_of_ne isName old rest
        rw [later]
        simp only [putEntry]
        split
        · rename_i same
          obtain rfl : name = key := same
          rw [lookup_of_ne isName, if_neg isName]
          rfl
        · rw [lookup_of_ne isName]
          exact ih

theorem Table.get?_erase {Key Value : Type} [DecidableEq Key] (table : Table Key Value)
    (key other : Key) :
    (table.erase key).get? other = if other = key then none else table.get? other := by
  obtain ⟨entries⟩ := table
  simp only [erase, get?]
  induction entries with
  | nil => simp
  | cons entry rest ih =>
      obtain ⟨name, value⟩ := entry
      by_cases dropped : name = key <;> by_cases isOther : other = name
      · subst dropped isOther
        simpa using ih
      · simp_all [lookup_of_ne]
      · simp_all
      · simp_all [lookup_of_ne]

def Context.Knows (context : Context) (chain : ElementId) : Prop :=
  chain ∈ context.chains ∨ chain ∈ context.retired

namespace World

open Store

theorem mem_chains_of_chainOf {world : World} {name : Option String} {chain : ElementId}
    (cached : world.context.chainOf name = some chain) : chain ∈ world.context.chains :=
  (world.context.chains_perm name).symm.subset (by simp [cached])

/-- At most one chain was let go of, and the offered one was cached under the name. -/
structure Sheds (world after : World) (name : Option String) (offered : Option ElementId) :
    Prop where
  store : after.store = world.store ∨ ∃ chain, world.context.Knows chain ∧
    world.context.isPinned chain = false ∧ after.store = world.store.destroyAll (some chain)
  cached : ∀ other chain, after.context.chainOf other = some chain →
    world.context.chainOf other = some chain ∨ other = name ∧ offered = some chain
  knows : ∀ chain, after.context.Knows chain → world.context.Knows chain ∨ offered = some chain
  commands : after.context.commands = world.context.commands
  pins : after.context.pins = world.context.pins

section Sheds

variable {settings : Settings} {world after : World} {name : Option String}
variable {offered : Option ElementId} {chain : ElementId}

theorem Sheds.of_context (context : after.context = world.context)
    (store : after.store = world.store) : Sheds world after name offered where
  store := Or.inl store
  cached := fun _ _ isChain => Or.inl (context ▸ isChain)
  knows := fun _ known => Or.inl (context ▸ known)
  commands := by rw [context]
  pins := by rw [context]

theorem Sheds.linked (sheds : Sheds world after name offered) (linked : world.store.Linked) :
    after.store.Linked := by
  rcases sheds.store with same | ⟨_, _, _, same⟩
  · exact same ▸ linked
  · exact same ▸ destroyAll_linked linked _

theorem Sheds.trims (sheds : Sheds world after name offered) (linked : world.store.Linked) :
    Trims world.store after.store := by
  rcases sheds.store with same | ⟨_, _, _, same⟩
  · exact same ▸ .refl _
  · exact same ▸ destroyAll_trims linked _

theorem retire_sheds (known : world.context.Knows chain) :
    Sheds world (world.retire chain) name offered := by
  unfold retire
  split
  · refine ⟨Or.inl rfl, fun _ _ => Or.inl, fun other knows => ?_, rfl, rfl⟩
    rcases knows with cached | retired
    · exact Or.inl (Or.inl cached)
    · rcases List.mem_append.mp retired with old | new
      · exact Or.inl (Or.inr old)
      · exact Or.inl (List.mem_singleton.mp new ▸ known)
  · rename_i unpinned
    exact ⟨Or.inr ⟨chain, known, by simpa using unpinned, rfl⟩, fun _ _ => Or.inl,
      fun _ => Or.inl, rfl, rfl⟩

theorem retirePrevious_sheds : Sheds world (world.retirePrevious name offered) name offered := by
  unfold retirePrevious
  split
  · rename_i previous isPrevious
    split
    · exact .of_context rfl rfl
    · exact retire_sheds (Or.inl (mem_chains_of_chainOf isPrevious))
  · exact .of_context rfl rfl

theorem setVariable_sheds (settings : Settings) (world : World) (name : Option String)
    (offered : Option ElementId) (readOnly : Bool) :
    Sheds world (world.setVariable settings name offered readOnly).2 name offered := by
  unfold setVariable
  split
  · exact .of_context rfl rfl
  · have left : Sheds world (world.retirePrevious name offered) name offered := retirePrevious_sheds
    refine ⟨left.store, fun other chain isChain => ?_, fun chain known => ?_, left.commands,
      left.pins⟩
    · change ((Table.put _ name ⟨offered, readOnly⟩).get? other).bind Cached.chain = _ at isChain
      rw [Table.get?_put] at isChain
      split at isChain
      · rename_i same
        exact Or.inr ⟨same, isChain⟩
      · exact left.cached other chain isChain
    · rcases known with cached | retired
      · have split := (Context.chains_put _ name ⟨offered, readOnly⟩).subset cached
        rcases List.mem_append.mp split with new | old
        · exact Or.inr (Option.mem_toList.mp new)
        · apply left.knows chain (Or.inl _)
          exact ((world.retirePrevious name offered).context.chains_perm name).symm.subset
            (List.mem_append_right _ old)
      · exact left.knows chain (Or.inr retired)

theorem cacheCopy_cases {start : Option ElementId}
    (copied : world.cacheCopy settings name start = some after) :
    ∃ forest grown head ids, world.store.forest? start = some forest ∧
      Grown world.store grown head forest ids ∧
      Orderly world { world with store := grown } ∧
      Orderly { world with store := grown } after ∧
      Sheds { world with store := grown } after name head := by
  unfold cacheCopy at copied
  split at copied
  · cases copied
  · rename_i store head ran
    cases copied
    obtain ⟨forest, read, planted⟩ := copyAll_cases ran
    have grows := plant_grown world.store forest
    rw [planted] at grows
    exact ⟨forest, store, head, _, read, grows,
      .of_context rfl (grows.retains fun worded => worded.forestFor _ _ read),
      setVariable_orderly settings _ name head _, setVariable_sheds settings _ name head _⟩

/-- The chain of a pin that ends is let go of if it is retired. -/
theorem leavePin_sheds (world : World) (name : Option String) (chain : ElementId) :
    Sheds (world.withContext (·.leave name (some chain))) (world.leavePin name (some chain)) none
      none := by
  simp only [leavePin, Option.toList_some, List.foldl_cons, List.foldl_nil, releaseRetired]
  split
  · rename_i lets
    obtain ⟨lone, isRetired⟩ := Bool.and_eq_true_iff.mp lets
    refine ⟨Or.inr ⟨chain, Or.inr (by simpa using isRetired), by simpa using lone, rfl⟩,
      fun _ _ => Or.inl, fun other known => ?_, rfl, rfl⟩
    exact Or.inl (known.imp id List.mem_of_mem_erase)
  · exact .of_context rfl rfl

end Sheds

end World

end Stencil
