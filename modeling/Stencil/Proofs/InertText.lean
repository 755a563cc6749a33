import Stencil.Proofs.EscapedBeside

/-!
Documents with an escaped text next to a marker. Where the text is read as it is on
its own it is also rendered so: without its escapes, and inside of a variable
without the blanks at its ends, then and whenever the variable is used again.
-/

namespace Stencil

namespace Evaluation

section Outputs

variable {settings : Settings} (meaning : Meaning) {text : String}

theorem evaluate_text (levels : Nat) (expanding : Expanding) (state : State) (text : String) :
    evaluate meaning (levels + 1) expanding state (.cons ⟨.text, some text, {}⟩ .nil .nil) =
      (Text.unescape text, state) := by
  simp [evaluate, nodes, node]

theorem evaluate_assignedForest (levels : Nat) :
    evaluate meaning (levels + 2) [] {} (assignedForest text) =
      (Text.collapse (Text.strip text), ({} : State).put (some "v") ⟨.cons ⟨.text,
        some (Text.collapse (Text.escape (Text.strip text))), {}⟩ .nil .nil, false⟩) := by
  rw [assignedForest, evaluate]
  simp [nodes, node, evaluate_text, Text.unescape_collapsed, store, Table.get?]

theorem documents_assigned (deep : 2 ≤ settings.maxDepth)
    (read : outline (assigned text) = .ok (assignedForest text)) :
    (documents settings meaning {} [assigned text, "\x7b\x7bv$\x7d\x7d"]).1 =
      [.ok (Text.collapse (Text.strip text)), .ok (Text.collapse (Text.strip text))] := by
  obtain ⟨levels, isDepth⟩ : ∃ levels, settings.maxDepth.toNat = levels + 2 :=
    ⟨settings.maxDepth.toNat - 2, by omega⟩
  have again : outline "\x7b\x7bv$\x7d\x7d" = .ok (.cons ⟨.variable, some "v", {}⟩ .nil .nil) := rfl
  simp only [documents, document, read, again, isDepth, evaluate_assignedForest]
  rw [evaluate]
  simp [nodes, node, value?, Table.get?, Table.put, Table.putEntry, evaluate_text,
    Text.unescape_collapsed]

theorem documents_followed (deep : 2 ≤ settings.maxDepth)
    (read : outline (followed text) = .ok (followedForest text)) :
    (documents settings meaning {} [followed text]).1 = [.ok (Text.collapse text)] := by
  obtain ⟨levels, isDepth⟩ : ∃ levels, settings.maxDepth.toNat = levels + 1 :=
    ⟨settings.maxDepth.toNat - 1, by omega⟩
  simp [documents, document, read, isDepth, followedForest, evaluate, nodes, node, value?,
    Table.get?, Text.unescape_collapsed]

end Outputs

end Evaluation

namespace World

open Evaluation (assigned assignedForest followed followedForest)

def Parses (settings : Settings) (set : Option CommandSet) (source : String) (forest : Forest) :
    Prop :=
  ∃ head parsed, (stocked settings set).parse settings source = .ok (.ok head, parsed) ∧
    parsed.store.forest? (some head) = some forest

def Outputs (settings : Settings) (set : Option CommandSet) (sources outputs : List String) :
    Prop :=
  ∃ after, Yields (fun fuel => documents settings fuel (stocked settings set) sources)
    (outputs.map .ok, after)

/-- The escaped text is a body like any other text. -/
structure InertInside (settings : Settings) (set : Option CommandSet) (text : String) : Prop where
  parses : Parses settings set (assigned text) (assignedForest text)
  outputs : Outputs settings set [assigned text, "\x7b\x7bv$\x7d\x7d"]
    [Text.collapse (Text.strip text), Text.collapse (Text.strip text)]

/-- The escaped text leaves the token behind it alone. -/
structure InertBefore (settings : Settings) (set : Option CommandSet) (text : String) : Prop where
  parses : Parses settings set (followed text) (followedForest text)
  outputs : Outputs settings set [followed text] [Text.collapse text]

section Fresh

variable {settings : Settings} {set : Option CommandSet} {text : String}

theorem parses_iff {source : String} {forest : Forest} :
    Parses settings set source forest ↔ Evaluation.outline source = .ok forest := by
  rcases parse_passes settings (stocked_idle settings set).mirrors source with
    ⟨found, parsed, head, ids, read, ran, _, planted, _⟩ | ⟨failure, _, report, read, ran, _⟩
  · constructor
    · rintro ⟨other, after, ranAlso, isForest⟩
      obtain ⟨⟩ := ran.symm.trans ranAlso
      rw [planted.forest?] at isForest
      exact read.trans (congrArg Except.ok (Option.some.inj isForest))
    · intro outline
      obtain rfl := Except.ok.inj (read.symm.trans outline)
      exact ⟨head, parsed, ran, planted.forest?⟩
  · constructor
    · rintro ⟨other, after, ranAlso, _⟩
      cases ran.symm.trans ranAlso
    · intro outline
      cases read.symm.trans outline

theorem outputs_of_evaluation {sources outputs : List String}
    (evaluates : (Evaluation.documents settings (Evaluation.meaningOf set) {} sources).1 =
      outputs.map .ok) : Outputs settings set sources outputs := by
  obtain ⟨after, yields, _⟩ :=
    documents_evaluate settings (stocked_idle settings set) sources
  rw [evaluates] at yields
  exact ⟨after, yields⟩

theorem inertInside_iff (deep : 2 ≤ settings.maxDepth)
    (visible : ∃ c ∈ text.toList, isBlank c = false) (noSlash : text.toList.getLast? ≠ some '\\') :
    InertInside settings set text ↔ ¬ Text.EndsBare '\x7d' text.toList := by
  constructor
  · exact fun inert => Evaluation.assigned_apart (parses_iff.mp inert.parses)
  · intro apart
    have read := Evaluation.outline_assigned visible noSlash apart
    exact ⟨parses_iff.mpr read,
      outputs_of_evaluation (Evaluation.documents_assigned _ deep read)⟩

theorem inertBefore_iff (deep : 2 ≤ settings.maxDepth)
    (visible : ∃ c ∈ text.toList, isBlank c = false) (noSlash : text.toList.getLast? ≠ some '\\') :
    InertBefore settings set text ↔ ¬ Text.EndsBare '\x7b' text.toList := by
  have filled : text.toList ≠ [] :=
    let ⟨_, member, _⟩ := visible
    List.ne_nil_of_mem member
  constructor
  · exact fun inert => Evaluation.followed_apart (parses_iff.mp inert.parses)
  · intro apart
    have read := Evaluation.outline_followed filled noSlash apart
    exact ⟨parses_iff.mpr read,
      outputs_of_evaluation (Evaluation.documents_followed _ deep read)⟩

end Fresh

/-- An escaped text is inert inside of a variable exactly if it does not end in a
bare closing brace, and in front of a token exactly if it does not end in a bare
opening one. -/
theorem escaped_inert (settings : Settings) (set : Option CommandSet) (text : String)
    (deep : 2 ≤ settings.maxDepth) (visible : ∃ c ∈ text.toList, isBlank c = false)
    (noSlash : text.toList.getLast? ≠ some '\\') :
    (InertInside settings set text ↔ ¬ Text.EndsBare '\x7d' text.toList) ∧
      (InertBefore settings set text ↔ ¬ Text.EndsBare '\x7b' text.toList) :=
  ⟨inertInside_iff deep visible noSlash, inertBefore_iff deep visible noSlash⟩

/-- Runs of both braces with blanks around them, and a last brace behind a backslash. -/
theorem escaped_inert_runs :
    let text := " \n\x7b\x7b\x7b a \x7d\x7d\t\x7b\\\x7d"
    2 ≤ ({} : Settings).maxDepth ∧ (∃ c ∈ text.toList, isBlank c = false) ∧
      text.toList.getLast? ≠ some '\\' ∧ ¬ Text.EndsBare '\x7d' text.toList ∧
      ¬ Text.EndsBare '\x7b' text.toList ∧ InertInside {} none text ∧ InertBefore {} none text := by
  intro text
  have deep : 2 ≤ ({} : Settings).maxDepth := by decide
  have visible : ∃ c ∈ text.toList, isBlank c = false := ⟨'a', by decide, rfl⟩
  have noSlash : text.toList.getLast? ≠ some '\\' := by decide
  have apart : ¬ Text.EndsBare '\x7d' text.toList ∧ ¬ Text.EndsBare '\x7b' text.toList := by decide
  have inert := escaped_inert {} none text deep visible noSlash
  exact ⟨deep, visible, noSlash, apart.1, apart.2, inert.1.mpr apart.1, inert.2.mpr apart.2⟩

/-- Not every text is inert: a closing brace ends the variable one place early, and
an opening one makes the token begin one place early. -/
theorem brace_not_inert :
    Evaluation.outline (assigned "a\x7d") =
        .ok (.cons ⟨.variable, some "v", {}⟩ (.cons ⟨.text, some "a", {}⟩ .nil .nil)
          (.cons ⟨.text, some "\x7d", {}⟩ .nil .nil)) ∧
      Evaluation.outline (followed "a\x7b") = .error (.failure ⟨.nameInvalid, 3⟩) ∧
      ¬ ∀ (settings : Settings) (set : Option CommandSet) (text : String), 2 ≤ settings.maxDepth →
        (∃ c ∈ text.toList, isBlank c = false) → text.toList.getLast? ≠ some '\\' →
        InertInside settings set text ∧ InertBefore settings set text := by
  refine ⟨by rfl, by rfl, fun always => ?_⟩
  have inert := (always {} none "a\x7d" (by decide) ⟨'a', by decide, rfl⟩ (by decide)).1
  exact Evaluation.assigned_apart (parses_iff.mp inert.parses) (by decide)

end World

end Stencil
