import Stencil.Proofs.JoinedDocuments

/-!
Documents one after another come to an end. What they assign is no higher than they are and
names no other variables, so one bound on heights and names that holds of all the sources
and of the values at the beginning holds all the way through.
-/

namespace Stencil.World

open Store

section Documents

variable {names : Finset (Option String)} {height : Nat} {settings : Settings}
variable {world after : World} {source : String}

theorem Shallow.destroyAll (shallow : Shallow names height world) (start : Option ElementId) :
    Shallow names height (world.destroyAll start) where
  linked := destroyAll_linked shallow.linked start
  cached := fun name chain isChain =>
    ⟨(shallow.cached name chain isChain).1,
      (shallow.cached name chain isChain).2.trims (destroyAll_trims shallow.linked start)⟩
  commands := shallow.commands

theorem document_ends (settings : Settings) (shallow : Shallow names height world)
    (worded : world.store.Worded)
    (fits : ∀ forest, Evaluation.outline source = .ok forest →
      forest.height ≤ height ∧ ∀ name ∈ forest.variableNames, name ∈ names) :
    ∃ rendered, Yields (fun fuel => document settings fuel world source) rendered ∧
      Shallow names height rendered.2 ∧ rendered.2.store.Worded := by
  rcases parse_cases settings world source with
    ⟨forest, grown, ids, read, parses, grows, proper⟩ | ⟨failure, report, _, parses, _⟩
  · obtain ⟨low, named⟩ := fits forest read
    have parsed : Shallow names height (note settings [] { world with store := grown }) :=
      shallow.grown rfl grows
    have nests := nests_of_forestFor _ grows.planted.forest? low named
    have spoken := worded.grow grows proper.worded
    obtain ⟨output, between, yields, bounded⟩ := parsed.renders settings spoken nests
    have kept := bounded.orderly.retains.worded spoken
    refine ⟨(.ok output, between.destroyAll (some world.store.size)),
      yields.together yields fun fuel ran _ => ?_, (bounded.shallow parsed).destroyAll _,
      kept.relinked fun id => label_destroyAll _⟩
    simp [document, parses, ran]
  · refine ⟨(.error (.failure ⟨report.status, report.position.toNat⟩),
      note settings (failureNotices failure report) world), .now fun fuel => ?_,
      ⟨shallow.linked, shallow.cached, shallow.commands⟩, worded⟩
    simp [document, parses]

def outlines (sources : List String) : Forest :=
  sources.foldr (fun source forest =>
    (Evaluation.outline source).toOption.getD .nil ++ forest) .nil

theorem outlines_fit {sources : List String} (member : source ∈ sources) {forest : Forest}
    (read : Evaluation.outline source = .ok forest) :
    forest.height ≤ (outlines sources).height ∧
      ∀ name ∈ forest.variableNames, name ∈ (outlines sources).variableNames := by
  induction sources with
  | nil => cases member
  | cons first rest ih =>
      simp only [outlines, List.foldr_cons, Forest.height_append, Forest.variableNames_append,
        List.mem_append]
      rcases List.mem_cons.mp member with rfl | later
      · rw [read, Except.toOption, Option.getD_some]
        exact ⟨le_max_left _ _, fun name inside => Or.inl inside⟩
      · obtain ⟨low, named⟩ := ih later
        exact ⟨le_trans low (le_max_right _ _), fun name inside => Or.inr (named name inside)⟩

theorem documents_end_within (shallow : Shallow names height world) (worded : world.store.Worded)
    (sources : List String)
    (fits : ∀ source ∈ sources, ∀ forest, Evaluation.outline source = .ok forest →
      forest.height ≤ height ∧ ∀ name ∈ forest.variableNames, name ∈ names) :
    ∃ rendered, Yields (fun fuel => documents settings fuel world sources) rendered := by
  induction sources generalizing world with
  | nil => exact ⟨([], world), .now fun _ => rfl⟩
  | cons source rest ih =>
      obtain ⟨first, yields, shallowFirst, wordedFirst⟩ :=
        document_ends settings shallow worded (fits source List.mem_cons_self)
      obtain ⟨others, yieldsRest⟩ := ih shallowFirst wordedFirst
        fun later member => fits later (List.mem_cons_of_mem _ member)
      refine ⟨(first.1 :: others.1, others.2),
        yields.together yieldsRest fun fuel ran ranRest => ?_⟩
      simp [documents, ran, ranRest]

/-- Where scripts only write and every value is a forest, documents end, whatever they are
and however deep they may nest. -/
theorem documents_end (settings : Settings) (linked : world.store.Linked)
    (worded : world.store.Worded) (tame : Tame world.context.commands)
    (values : ∀ chain ∈ world.context.chains,
      ∃ value, world.store.forest? (some chain) = some value) (sources : List String) :
    ∃ rendered, Yields (fun fuel => documents settings fuel world sources) rendered := by
  have shallow := shallow_of_values linked tame values (outlines sources)
  apply documents_end_within shallow worded sources
  intro source member forest read
  obtain ⟨low, named⟩ := outlines_fit member read
  refine ⟨List.le_max_of_le' 0 (List.mem_map_of_mem List.mem_cons_self) low, fun name inside => ?_⟩
  simp only [World.names, List.mem_toFinset, List.mem_append, List.mem_flatMap]
  exact Or.inr ⟨_, List.mem_cons_self, named name inside⟩

end Documents

end Stencil.World
