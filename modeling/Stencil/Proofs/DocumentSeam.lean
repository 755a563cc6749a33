import Stencil.Proofs.JoinedSources

/-!
The two texts at a seam. The last text of an outline ends, and the first one begins,
with the character that its source ends or begins with, unless that is a blank. So where
two sources are apart, no escape reaches from one of these texts into the other.
-/

namespace Stencil

namespace Forest

def lastText : Forest → Option String
  | .nil => none
  | .cons node _ .nil => if node.kind = .text then node.text else none
  | .cons _ _ (.cons next body rest) => lastText (.cons next body rest)

def firstText : Forest → Option String
  | .nil => none
  | .cons node _ _ => if node.kind = .text then node.text else none

variable {source : Source} {start stop : Nat} {forest : Forest} {text : String}

theorem lastText_cons (node : Node) (body : Forest) {rest : Forest} (filled : rest ≠ .nil) :
    lastText (.cons node body rest) = lastText rest := by
  cases rest with
  | nil => exact absurd rfl filled
  | cons => rfl

theorem Accounts.lastText (accounts : Accounts source start stop forest)
    (isLast : forest.lastText = some text) :
    ∃ before < stop, stop ≤ source.size ∧
      text = String.ofList (Text.collapseChars (source.slice before stop)) := by
  induction accounts with
  | nil => cases isLast
  | text start next stop rest room inside _ _ behind ih =>
      by_cases ends : rest = .nil
      · subst ends
        obtain rfl := behind.of_nil
        exact ⟨start, room, inside, (Option.some.inj isLast).symm⟩
      · exact ih (lastText_cons _ _ ends ▸ isLast)
  | bare start closing stop node rest spelled _ ih =>
      by_cases ends : rest = .nil
      · subst ends
        simp [Forest.lastText, spelled.normal.2] at isLast
      · exact ih (lastText_cons _ _ ends ▸ isLast)
  | full start closing stop span node body rest spelled _ _ _ ih =>
      by_cases ends : rest = .nil
      · subst ends
        simp [Forest.lastText, spelled.normal.2] at isLast
      · exact ih (lastText_cons _ _ ends ▸ isLast)

theorem Accounts.firstText (accounts : Accounts source start stop forest)
    (isFirst : forest.firstText = some text) :
    ∃ behind, start < behind ∧
      text = String.ofList (Text.collapseChars (source.slice start behind)) := by
  cases accounts with
  | nil => cases isFirst
  | text _ next _ _ room => exact ⟨next, room, (Option.some.inj isFirst).symm⟩
  | bare _ _ _ _ _ spelled => simp [Forest.firstText, spelled.normal.2] at isFirst
  | full _ _ _ _ _ _ _ spelled => simp [Forest.firstText, spelled.normal.2] at isFirst

end Forest

namespace Text

variable {text : List Char} {c : Char}

/-- Only a blank may end a collapsed text in place of what the text ends with. -/
theorem getLast?_collapseChars (isLast : (collapseChars text).getLast? = some c)
    (bare : isBlank c = false) : text.getLast? = some c := by
  induction text with
  | nil => exact isLast
  | cons first rest ih =>
      have alone : ∀ d, (d :: collapseChars rest).getLast? = some c →
          rest.getLast? = some c ∨ rest = [] ∧ d = c := by
        intro d isLast
        cases collapsed : collapseChars rest with
        | nil =>
            rw [collapsed] at isLast
            exact Or.inr ⟨collapseChars_eq_nil.mp collapsed, Option.some.inj isLast⟩
        | cons e more =>
            rw [collapsed, List.getLast?_cons_cons, ← collapsed] at isLast
            exact Or.inl (ih isLast)
      simp only [collapseChars] at isLast
      split at isLast
      · split at isLast
        · exact getLast?_tail (ih isLast)
        · rcases alone ' ' isLast with later | ⟨_, rfl⟩
          · exact getLast?_tail later
          · cases bare
      · rcases alone first isLast with later | ⟨rfl, rfl⟩
        · exact getLast?_tail later
        · rfl

theorem head?_collapseChars (isFirst : (collapseChars text).head? = some c)
    (bare : isBlank c = false) : text.head? = some c := by
  induction text with
  | nil => exact isFirst
  | cons first rest ih =>
      simp only [collapseChars] at isFirst
      split at isFirst
      · split at isFirst
        · rename_i blankNext
          rw [ih isFirst] at blankNext
          simp [bare] at blankNext
        · cases isFirst
          cases bare
      · exact isFirst

end Text

namespace Outline

open Source

section Ends

variable {source : String} {forest : Forest} {text : String} {c : Char}
variable (read : Outline.read (ofString source) ⟨0, (ofString source).size⟩ = .ok forest)
include read

theorem accounts_of_read (filled : source ≠ "") :
    forest.Accounts (ofString source) 0 (ofString source).size := by
  have room : 0 < (ofString source).size := Nat.lt_of_not_ge fun none =>
    filled (eq_empty (Nat.not_lt_of_ge none))
  exact readFor_accounts _ _ (Nat.le_refl _) room read

theorem last_of_read (isText : forest.lastText = some text)
    (isLast : text.toList.getLast? = some c) (bare : isBlank c = false) :
    source.toList.getLast? = some c := by
  by_cases empty : source = ""
  · obtain rfl := (read_normal read).1 empty
    cases isText
    cases isLast
  · obtain ⟨before, ahead, _, rfl⟩ := (accounts_of_read read empty).lastText isText
    rw [String.toList_ofList] at isLast
    have ends := Text.getLast?_collapseChars isLast bare
    rw [slice_eq, List.take_of_length_le (by rw [List.length_drop, ← size_eq_length]),
      List.getLast?_drop, ← size_eq_length, if_neg (Nat.not_le_of_lt ahead)] at ends
    rwa [toList_ofString] at ends

theorem first_of_read (isText : forest.firstText = some text)
    (isFirst : text.toList.head? = some c) (bare : isBlank c = false) :
    source.toList.head? = some c := by
  by_cases empty : source = ""
  · obtain rfl := (read_normal read).1 empty
    cases isText
    cases isFirst
  · obtain ⟨behind, room, rfl⟩ := (accounts_of_read read empty).firstText isText
    rw [String.toList_ofList] at isFirst
    have begins := Text.head?_collapseChars isFirst bare
    rw [slice_eq, List.drop_zero, List.head?_take, if_neg (by omega)] at begins
    rwa [toList_ofString] at begins

end Ends

/-- The escapes in the two texts at a seam are taken away by themselves. -/
theorem unescape_seam {first second : String} {forest other : Forest}
    (apart : Text.Apart first.toList second.toList)
    (read : Outline.read (ofString first) ⟨0, (ofString first).size⟩ = .ok forest)
    (otherRead : Outline.read (ofString second) ⟨0, (ofString second).size⟩ = .ok other)
    {last next : String} (isLast : forest.lastText = some last)
    (isNext : other.firstText = some next) :
    Text.unescape (last ++ next) = Text.unescape last ++ Text.unescape next := by
  have chars : Text.unescapeChars (last.toList ++ next.toList) =
      Text.unescapeChars last.toList ++ Text.unescapeChars next.toList := by
    apply Text.unescapeChars_append
    · intro slash
      exact apart.bare (last_of_read read isLast slash (by decide))
    · intro brace ends isBrace begins
      have bare := Text.not_blank_of_brace isBrace
      exact apart.braces brace (last_of_read read isLast ends bare) isBrace
        (first_of_read otherRead isNext begins bare)
  rw [Text.unescape, String.toList_append, chars, String.ofList_append, Text.unescape,
    Text.unescape]

end Outline

end Stencil
