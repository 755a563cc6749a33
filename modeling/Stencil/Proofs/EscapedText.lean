import Stencil.Proofs.Documents
import Stencil.Proofs.Escaping
import Stencil.Proofs.SpelledReading

/-!
Escaped text in a source. It holds no bare marker, so a source that is an escaped
text as a whole is one run of text, and rendering it takes the escapes away again.
-/

namespace Stencil

namespace Source

variable {source : Source}

theorem hasAt_iff {index : Nat} {c : Char} :
    source.HasAt index c ↔ source.toList[index]? = some c := by
  simp [HasAt, toList]

theorem size_eq_length (source : Source) : source.size = source.toList.length := by
  simp [size, toList]

theorem slice_eq (source : Source) (start stop : Nat) :
    source.slice start stop = (source.toList.drop start).take (stop - start) := by
  simp [slice, toList, List.extract]

@[simp] theorem toList_ofString (text : String) : (ofString text).toList = text.toList := rfl

theorem split_at_pair {chars : List Char} {index : Nat} {first second : Char}
    (isFirst : chars[index]? = some first) (isSecond : chars[index + 1]? = some second) :
    chars = chars.take index ++ first :: second :: chars.drop (index + 2) := by
  obtain ⟨_, isFirst⟩ := List.getElem?_eq_some_iff.mp isFirst
  obtain ⟨inside, isSecond⟩ := List.getElem?_eq_some_iff.mp isSecond
  calc chars = chars.take index ++ chars.drop index := (List.take_append_drop index chars).symm
    _ = _ := by
      rw [List.drop_eq_getElem_cons (Nat.lt_of_succ_lt inside),
        List.drop_eq_getElem_cons inside, isFirst, isSecond]

theorem hidden_behind {front back : List Char} (holds : source.toList = front ++ back) :
    source.Hidden front.length ↔ front.getLast? = some '\\' := by
  rcases List.eq_nil_or_concat front with rfl | ⟨front, c, rfl⟩
  · simp [Hidden]
  · simp [Hidden, hasAt_iff, holds]

section Within

variable {front middle back : List Char} (holds : source.toList = front ++ middle ++ back)
include holds

theorem hasAt_middle {index : Nat} {c : Char} (inside : index < middle.length) :
    source.HasAt (front.length + index) c ↔ middle[index]? = some c := by
  rw [hasAt_iff, holds, List.append_assoc, List.getElem?_append_right (Nat.le_add_right _ _),
    Nat.add_sub_cancel_left, List.getElem?_append_left inside]

theorem hasAt_back (index : Nat) {c : Char} :
    source.HasAt (front.length + middle.length + index) c ↔ back[index]? = some c := by
  rw [hasAt_iff, holds, ← List.length_append, List.getElem?_append_right (Nat.le_add_right _ _),
    Nat.add_sub_cancel_left]

theorem hidden_middle {index : Nat} (inside : index ≤ middle.length)
    (slash : (middle.take index).getLast? = some '\\') : source.Hidden (front.length + index) := by
  have parted : source.toList = (front ++ middle.take index) ++ (middle.drop index ++ back) := by
    rw [holds, List.append_assoc, List.append_assoc, ← List.append_assoc (middle.take index),
      List.take_append_drop]
  have length : (front ++ middle.take index).length = front.length + index := by
    rw [List.length_append, List.length_take, Nat.min_eq_left inside]
  rw [← length, hidden_behind parted, List.getLast?_append, slash]
  rfl

theorem slice_middle :
    source.slice front.length (front.length + middle.length) = middle := by
  rw [slice_eq, holds, List.append_assoc, List.drop_left, Nat.add_sub_cancel_left, List.take_left]

end Within

section Escaped

variable {front back text : List Char}
variable (holds : source.toList = front ++ Text.escapeChars text ++ back)
include holds

theorem escaped_unpaired {brace : Char} (isBrace : isBrace brace = true) {index : Nat}
    (inside : index + 1 < (Text.escapeChars text).length) :
    ¬ source.Marks ⟨brace, brace⟩ (front.length + index) := by
  rintro ⟨hasFirst, hasSecond, bare⟩
  rw [hasAt_middle holds (Nat.lt_of_succ_lt inside)] at hasFirst
  rw [Nat.add_assoc, hasAt_middle holds inside] at hasSecond
  exact bare (hidden_middle holds (Nat.le_of_lt (Nat.lt_of_succ_lt inside))
    (Text.escapeChars_marked isBrace (split_at_pair hasFirst hasSecond)))

/-- An escaped text is one run of its own span, whatever stands around it. -/
theorem escaped_runs :
    source.Runs front.length (front.length + (Text.escapeChars text).length)
      (front.length + (Text.escapeChars text).length) where
  ahead := Nat.le_add_right _ _
  inside := Nat.le_refl _
  bare := fun index after _ room => by
    obtain ⟨index, rfl⟩ := Nat.exists_eq_add_of_le after
    exact ⟨escaped_unpaired holds rfl (by omega), escaped_unpaired holds rfl (by omega)⟩
  cut := fun short => absurd short (Nat.lt_irrefl _)

/-- No bare marker begins in an escaped text unless a bare brace at its end meets
one behind it. -/
theorem escaped_unmarked {brace : Char} (isBrace : isBrace brace = true)
    (apart : Text.EndsBare brace text → back.head? ≠ some brace) {index : Nat}
    (after : front.length ≤ index)
    (before : index < front.length + (Text.escapeChars text).length) :
    ¬ source.Marks ⟨brace, brace⟩ index := by
  obtain ⟨index, rfl⟩ := Nat.exists_eq_add_of_le after
  rcases Nat.lt_or_eq_of_le (show index + 1 ≤ (Text.escapeChars text).length by omega) with
    within | last
  · exact escaped_unpaired holds isBrace within
  · rintro ⟨hasFirst, hasSecond, bare⟩
    rw [hasAt_middle holds (by omega)] at hasFirst
    rw [Nat.add_assoc, last, ← Nat.add_zero (_ + _), hasAt_back holds, ← List.head?_eq_getElem?]
      at hasSecond
    refine apart ((Text.endsBare_escape text).mp ⟨(Text.escapeChars text).take index, ?_, ?_⟩)
      hasSecond
    · calc Text.escapeChars text = (Text.escapeChars text).take (index + 1) :=
            (List.take_of_length_le (Nat.le_of_eq last.symm)).symm
        _ = _ := by rw [List.take_add_one, hasFirst, Option.toList_some]
    · exact fun slash => bare (hidden_middle holds (by omega) slash)

end Escaped

end Source

namespace Outline

variable {source : Source} {span : Span}

theorem read_run (inside : span.stop ≤ source.size) (room : span.start < span.stop)
    (runs : source.Runs span.start span.stop span.stop) :
    read source span = .ok (.cons ⟨.text, some (String.ofList
      (Text.collapseChars (source.slice span.start span.stop))), {}⟩ .nil .nil) := by
  have pieces := Level.pieces_run inside room runs
  rw [Level.pieces_done, map_ok] at pieces
  rw [read_eq source inside, Level.read_filled pieces]
  rfl

end Outline

namespace Evaluation

/-- The outline of an escaped text is the text, with its blanks collapsed. -/
theorem outline_escape (text : String) :
    outline (Text.escape text) =
      .ok (.cons ⟨.text, some (Text.collapse (Text.escape text)), {}⟩ .nil .nil) := by
  have chars : (Source.ofString (Text.escape text)).toList = Text.escapeChars text.toList := by
    simp [Text.escape]
  have holds : (Source.ofString (Text.escape text)).toList =
      [] ++ Text.escapeChars text.toList ++ [] := by
    rw [chars, List.nil_append, List.append_nil]
  have size :
      (Source.ofString (Text.escape text)).size = (Text.escapeChars text.toList).length := by
    rw [Source.size_eq_length, chars]
  have collapsed : Text.collapse (Text.escape text) =
      String.ofList (Text.collapseChars (Text.escapeChars text.toList)) := by
    rw [Text.collapse, Text.escape, String.toList_ofList]
  by_cases empty : (Source.ofString (Text.escape text)).size = 0
  · have none : Text.escapeChars text.toList = [] := by
      rw [size] at empty
      exact List.length_eq_zero_iff.mp empty
    have noRoom : (⟨0, (Source.ofString (Text.escape text)).size⟩ : Span).stop ≤ 0 :=
      Nat.le_of_eq empty
    rw [outline, Outline.read_empty _ noRoom, collapsed, none]
    rfl
  · have runs := Source.escaped_runs holds
    have slice := Source.slice_middle holds
    simp only [List.length_nil, Nat.zero_add, ← size] at runs slice
    rw [outline, Outline.read_run (Nat.le_refl _) (Nat.pos_of_ne_zero empty) runs, slice, collapsed]

end Evaluation

theorem Store.Planted.single {store : Store} {owner before : Option ElementId} {id : ElementId}
    {node : Node} {ids : List ElementId}
    (planted : store.Planted owner before (some id) (.cons node .nil .nil) ids) :
    store.get? id = some ⟨node, none, before, none, owner⟩ := by
  cases planted with
  | cons _ _ _ _ _ _ _ _ _ _ found body rest =>
      cases body
      cases rest
      exact found

namespace World

theorem shallower_deeper (world : World) : world.deeper.shallower = world := rfl

theorem render_text (settings : Settings) {world : World} {id : ElementId} {text : String}
    {before owner : Option ElementId}
    (found : world.store.get? id = some ⟨⟨.text, some text, {}⟩, none, before, none, owner⟩)
    (allowed : world.context.depth < settings.maxDepth) :
    Yields (fun fuel => render settings fuel world (some id) true)
      (.ok (Text.unescape text), world) := by
  refine ⟨3, fun fuel enough => ?_⟩
  obtain ⟨fuel, rfl⟩ : ∃ less, fuel = less + 3 := ⟨fuel - 3, by omega⟩
  have next : world.deeper.store.next id = none := (Store.links_of_cell found).1
  have kind : world.deeper.store.kind? id = some .text := by
    simp [Store.kind?, deeper, withContext, found]
  have label : world.deeper.store.text id = some text := by
    simp [Store.text, deeper, withContext, found]
  have one : renderOne settings (fuel + 1) world.deeper id =
      some (.ok (Text.unescape text), world.deeper) := by
    simp [renderOne, kind, label]
  have all : renderFrom settings (fuel + 2) world.deeper id true =
      some (.ok (Text.unescape text), world.deeper) := by
    simp [renderFrom, one, next]
  simp [render, all, Int.not_le.mpr allowed, shallower_deeper]

/-- Every escaped text is parsed to one text element and renders to the text with
its blanks collapsed, in a fresh context of any depth but none, which stays fresh. -/
theorem escape_renders (settings : Settings) (world : World)
    (commands : Table (Option String) Handler) (text : String)
    (fresh : world.context = { commands }) (deep : 1 ≤ settings.maxDepth) :
    ∃ head parsed rendered,
      world.parse settings (Text.escape text) = .ok (.ok head, parsed) ∧
      parsed.store.forest? (some head) =
        some (.cons ⟨.text, some (Text.collapse (Text.escape text)), {}⟩ .nil .nil) ∧
      Yields (fun fuel => render settings fuel parsed (some head) true)
        (.ok (Text.collapse text), rendered) ∧
      rendered.context.cache = {} ∧ rendered.context.depth = 0 := by
  have outlines : Outline.read _ _ = _ := Evaluation.outline_escape text
  rcases Store.parse_spec settings.errorChecks world.store (Text.escape text) none none
      ⟨0, (Source.ofString (Text.escape text)).size⟩ rfl (by simp) (Nat.zero_le _) (Nat.le_refl _)
    with ⟨forest, grown, ids, read, ran, grows⟩ | ⟨failure, _, read, _⟩
  · obtain rfl := Except.ok.inj (outlines.symm.trans read)
    let parsed : World := note settings [] { world with store := grown }
    have context : parsed.context = { commands } := fresh
    have allowed : parsed.context.depth < settings.maxDepth := by
      rw [context]
      simp only [Int.ofNat_zero]
      omega
    have renders :
        Yields (fun fuel => render settings fuel parsed (some world.store.size) true) _ :=
      render_text settings grows.planted.single allowed
    rw [Text.unescape_collapsed] at renders
    refine ⟨world.store.size, parsed, parsed, ?_, grows.planted.forest?, renders, ?_, ?_⟩
    · simp [World.parse, ran, parsed]
    · rw [context]
    · rw [context]
  · cases outlines.symm.trans read

/-- Odd runs of both braces, one of them behind a backslash, with blanks between. -/
theorem escape_renders_runs :
    let text := "\\\x7b\x7b\x7b \n \x7d\x7b\x7d\x7d\x7d"
    ∃ head parsed rendered, World.parse {} {} (Text.escape text) = .ok (.ok head, parsed) ∧
      Yields (fun fuel => render {} fuel parsed (some head) true)
        (.ok "\\\x7b\x7b\x7b \x7d\x7b\x7d\x7d\x7d", rendered) ∧
      rendered.context.cache = {} := by
  obtain ⟨head, parsed, rendered, ran, _, renders, cache, _⟩ :=
    escape_renders {} {} {} "\\\x7b\x7b\x7b \n \x7d\x7b\x7d\x7d\x7d" rfl (by decide)
  exact ⟨head, parsed, rendered, ran, renders, cache⟩

end World

end Stencil
