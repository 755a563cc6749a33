import Stencil.Proofs.EscapedText

/-!
Escaping goes through a text run by run: a run of one brace is escaped for itself,
whatever stands around it. What comes out holds no bare marker at any place, and
taking the escapes away gives the text back.
-/

namespace Stencil

namespace Text

def escapedPairs (brace : Char) : Nat → List Char
  | 0 => []
  | count + 1 => '\\' :: brace :: brace :: escapedPairs brace count

section Run

variable {brace : Char} {behind : List Char} (apart : behind.head? ≠ some brace)
include apart

theorem runLength_replicate (count : Nat) :
    runLength brace (List.replicate count brace ++ behind) = count := by
  rw [runLength_append apart, runLength, List.takeWhile_replicate, if_pos (beq_self_eq_true brace),
    List.length_replicate]

variable (isBrace : isBrace brace = true)
include isBrace

theorem escapeChars_even (count : Nat) :
    escapeChars (List.replicate (2 * count) brace ++ behind) =
      escapedPairs brace count ++ escapeChars behind := by
  induction count with
  | zero => rfl
  | succ count ih =>
      have pairs : Pairs brace (brace :: (List.replicate (2 * count) brace ++ behind)) := by
        refine ⟨isBrace, ?_⟩
        rw [runLength_cons, if_pos rfl, runLength_replicate apart]
        omega
      calc escapeChars (List.replicate (2 * (count + 1)) brace ++ behind)
          = escapeChars (brace :: brace :: (List.replicate (2 * count) brace ++ behind)) := rfl
        _ = '\\' :: brace :: brace ::
              escapeChars (List.replicate (2 * count) brace ++ behind) := escapeChars_pair pairs
        _ = _ := by rw [ih]; rfl

/-- A whole run of a brace: the first one stays bare if the run is odd, and the
others are escaped two by two. -/
theorem escapeChars_run (count : Nat) :
    escapeChars (List.replicate count brace ++ behind) =
      List.replicate (count % 2) brace ++ escapedPairs brace (count / 2) ++
        escapeChars behind := by
  have even := escapeChars_even apart isBrace (count / 2)
  rcases Nat.mod_two_eq_zero_or_one count with none | one
  · rw [none, show count = 2 * (count / 2) by omega, even, Nat.mul_div_cancel_left _ Nat.two_pos]
    rfl
  · have alone : ¬ Pairs brace (List.replicate (2 * (count / 2)) brace ++ behind) := by
      rintro ⟨_, odd⟩
      rw [runLength_replicate apart] at odd
      omega
    calc escapeChars (List.replicate count brace ++ behind)
        = escapeChars (brace :: (List.replicate (2 * (count / 2)) brace ++ behind)) := by
          rw [show count = 2 * (count / 2) + 1 by omega, List.replicate_succ, List.cons_append,
            show (2 * (count / 2) + 1) / 2 = count / 2 by omega]
      _ = brace :: (escapedPairs brace (count / 2) ++ escapeChars behind) := by
          rw [escapeChars_plain alone, even]
      _ = _ := by rw [one]; rfl

end Run

example : escape "\\\x7b\x7b\x7b\x7d" = "\\\x7b\\\x7b\x7b\x7d" := by decide

end Text

namespace Source

theorem markerAt_unmarked {source : Source} {marker : Marker} {index stop : Nat}
    (inside : stop ≤ source.size) (unmarked : ¬ source.Marks marker index) :
    source.markerAt marker index stop = .ok false := by
  have answers : Answers (source.markerAt marker index stop) _ := markerAt_answers marker inside
  obtain ⟨found, ran, isFound⟩ := answers
  cases found with
  | false => exact ran
  | true => exact absurd (isFound.mp rfl).2 unmarked

theorem escape_unmarked (text : String) {brace : Char} (isBrace : isBrace brace = true)
    (index : Nat) : ¬ (ofString (Text.escape text)).Marks ⟨brace, brace⟩ index := by
  have holds : (ofString (Text.escape text)).toList =
      [] ++ Text.escapeChars text.toList ++ [] := by simp [Text.escape]
  intro marks
  -- The second brace of the marker stands inside of the text, which is all there is.
  obtain ⟨inside, _⟩ := List.getElem?_eq_some_iff.mp (hasAt_iff.mp marks.2.1)
  rw [holds, List.nil_append, List.append_nil] at inside
  have unpaired := escaped_unpaired holds isBrace inside
  rw [List.length_nil, Nat.zero_add] at unpaired
  exact unpaired marks

/-- Unescaping gives back every text that is escaped, and the scanner finds no
marker of either kind in the escaped one. -/
theorem escape_undone (text : String) :
    Text.unescape (Text.escape text) = text ∧
      ∀ marker, marker = .opening ∨ marker = .closing → ∀ index,
        (ofString (Text.escape text)).markerAt marker index
          (ofString (Text.escape text)).size = .ok false := by
  refine ⟨?_, fun marker isMarker index => markerAt_unmarked (Nat.le_refl _) ?_⟩
  · calc Text.unescape (Text.escape text)
        = String.ofList (Text.unescapeChars (Text.escapeChars text.toList)) := by
          rw [Text.unescape, Text.escape, String.toList_ofList]
      _ = text := by rw [Text.unescape_escape, String.ofList_toList]
  · rcases isMarker with rfl | rfl
    · exact escape_unmarked text rfl index
    · exact escape_unmarked text rfl index

end Source

end Stencil
