import Mathlib.Data.List.DropRight
import Stencil.Text

/-!
Escaping a text takes its markers away and nothing else. In an escaped text two
equal braces stand next to each other only behind a backslash, whatever
backslashes and runs of braces the text had before; unescaping gives the text
back. Escaping looks at runs of braces and collapsing at runs of blanks, so it
does not matter which of the two comes first.
-/

namespace Stencil.Text

theorem runLength_cons (brace c : Char) (text : List Char) :
    runLength brace (c :: text) = if c = brace then runLength brace text + 1 else 0 := by
  by_cases same : c = brace <;> simp [runLength, same]

def Pairs (c : Char) (text : List Char) : Prop := isBrace c = true ∧ runLength c text % 2 = 1

instance (c : Char) (text : List Char) : Decidable (Pairs c text) :=
  inferInstanceAs (Decidable (_ ∧ _))

theorem Pairs.partner {c : Char} {text : List Char} (pairs : Pairs c text) :
    ∃ rest, text = c :: rest ∧ runLength c rest % 2 = 0 := by
  obtain ⟨_, odd⟩ := pairs
  cases text with
  | nil => simp [runLength] at odd
  | cons d rest =>
      rw [runLength_cons] at odd
      split at odd
      · rename_i same
        exact ⟨rest, by rw [same], by omega⟩
      · cases odd

theorem not_pairs {c : Char} (single : isBrace c = false) (text : List Char) : ¬ Pairs c text := by
  rintro ⟨brace, _⟩
  rw [single] at brace
  cases brace

theorem escapeChars_pair {c : Char} {rest : List Char} (pairs : Pairs c (c :: rest)) :
    escapeChars (c :: c :: rest) = '\\' :: c :: c :: escapeChars rest := by
  obtain ⟨brace, odd⟩ := pairs
  simp [escapeChars, brace, odd]

theorem escapeChars_plain {c : Char} {text : List Char} (alone : ¬ Pairs c text) :
    escapeChars (c :: text) = c :: escapeChars text := by
  cases text with
  | nil => rfl
  | cons d rest =>
      have single : (isBrace c && runLength c (d :: rest) % 2 == 1) = false := by
        simpa [Pairs] using alone
      simp [escapeChars, single]

/-- Induction along a text as escaping takes it apart, in pairs of braces and
single characters. -/
theorem escape_induction {motive : List Char → Prop} (nil : motive [])
    (pair : ∀ c rest, Pairs c (c :: rest) → motive rest → motive (c :: c :: rest))
    (plain : ∀ c text, ¬ Pairs c text → motive text → motive (c :: text)) (text : List Char) :
    motive text := by
  induction size : text.length using Nat.strongRecOn generalizing text with
  | _ size ih =>
      cases text with
      | nil => exact nil
      | cons c text =>
          rw [List.length_cons] at size
          by_cases pairs : Pairs c text
          · obtain ⟨rest, rfl, _⟩ := pairs.partner
            rw [List.length_cons] at size
            exact pair c rest pairs (ih rest.length (by omega) rest rfl)
          · exact plain c text pairs (ih text.length (by omega) text rfl)

theorem escapeChars_head {brace : Char} (isBrace : isBrace brace = true) {text : List Char}
    (even : runLength brace text % 2 = 0) : (escapeChars text).head? ≠ some brace := by
  cases text with
  | nil => simp [escapeChars]
  | cons c text =>
      by_cases pairs : Pairs c text
      · obtain ⟨rest, rfl, _⟩ := pairs.partner
        rw [escapeChars_pair pairs]
        rintro ⟨⟩
        cases isBrace
      · rw [escapeChars_plain pairs]
        rintro ⟨⟩
        rw [runLength_cons, if_pos rfl] at even
        exact pairs ⟨isBrace, by omega⟩

/-- In an escaped text a backslash stands directly before two equal braces. -/
theorem escapeChars_marked {brace : Char} (isBrace : isBrace brace = true)
    {text before after : List Char}
    (split : escapeChars text = before ++ brace :: brace :: after) :
    before.getLast? = some '\\' := by
  induction text using escape_induction generalizing before with
  | nil => simp [escapeChars] at split
  | pair c rest pairs ih =>
      obtain ⟨_, same, even⟩ := pairs.partner
      obtain rfl := (List.cons.inj same).2
      rw [escapeChars_pair pairs] at split
      -- The two braces are the backslash and the first of the pair, the pair, the second of it
      -- with what follows, or they stand behind it.
      match before, split with
      | [], split =>
          obtain rfl := (List.cons.inj split).1
          cases isBrace
      | [slash], split => simp [← (List.cons.inj split).1]
      | [slash, first], split =>
          simp only [List.cons_append, List.nil_append, List.cons.injEq] at split
          obtain ⟨_, _, rfl, later⟩ := split
          exact absurd (by simp [later]) (escapeChars_head isBrace even)
      | slash :: first :: second :: before, split =>
          simp only [List.cons_append, List.cons.injEq] at split
          have last := ih split.2.2.2
          simp [List.getLast?_cons, last]
  | plain c text alone ih =>
      rw [escapeChars_plain alone] at split
      cases before with
      | nil =>
          simp only [List.nil_append, List.cons.injEq] at split
          obtain ⟨rfl, later⟩ := split
          have even : runLength c text % 2 = 0 := by
            have odd : ¬ runLength c text % 2 = 1 := fun odd => alone ⟨isBrace, odd⟩
            omega
          exact absurd (by simp [later]) (escapeChars_head isBrace even)
      | cons first before =>
          have last := ih (List.cons.inj split).2
          simp [List.getLast?_cons, last]

theorem unescapeChars_plain {c : Char} {text : List Char}
    (alone : c = '\\' → ∀ brace after, isBrace brace = true → text ≠ brace :: brace :: after) :
    unescapeChars (c :: text) = c :: unescapeChars text := by
  rw [unescapeChars.eq_def]
  split
  · rename_i empty
    cases empty
  · rename_i rest isText
    obtain ⟨rfl, rfl⟩ := List.cons.inj isText
    exact absurd rfl (alone rfl _ rest rfl)
  · rename_i rest isText
    obtain ⟨rfl, rfl⟩ := List.cons.inj isText
    exact absurd rfl (alone rfl _ rest rfl)
  · rename_i isText
    obtain ⟨rfl, rfl⟩ := List.cons.inj isText
    rfl

theorem unescapeChars_pair {c : Char} (brace : isBrace c = true) (rest : List Char) :
    unescapeChars ('\\' :: c :: c :: rest) = c :: c :: unescapeChars rest := by
  simp only [isBrace, Bool.or_eq_true, beq_iff_eq] at brace
  rcases brace with rfl | rfl <;> rfl

theorem unescape_escape (text : List Char) : unescapeChars (escapeChars text) = text := by
  induction text using escape_induction with
  | nil => rfl
  | pair c rest pairs ih =>
      rw [escapeChars_pair pairs, unescapeChars_pair pairs.1, ih]
  | plain c text alone ih =>
      rw [escapeChars_plain alone, unescapeChars_plain, ih]
      intro _ brace after isBrace split
      have last := escapeChars_marked isBrace (split.trans (List.nil_append _).symm)
      cases last

section Collapse

theorem not_blank_of_brace {c : Char} (brace : isBrace c = true) : isBlank c = false := by
  simp only [isBrace, Bool.or_eq_true, beq_iff_eq] at brace
  rcases brace with rfl | rfl <;> rfl

theorem collapseChars_bare {c : Char} (bare : isBlank c = false) (text : List Char) :
    collapseChars (c :: text) = c :: collapseChars text := by
  simp [collapseChars, bare]

theorem runLength_collapse {brace : Char} (isBrace : isBrace brace = true) (text : List Char) :
    runLength brace (collapseChars text) = runLength brace text := by
  have bare := not_blank_of_brace isBrace
  induction text with
  | nil => rfl
  | cons c text ih =>
      cases blank : isBlank c with
      | false => rw [collapseChars_bare blank, runLength_cons, runLength_cons, ih]
      | true =>
          have none : ∀ d rest, isBlank d = true → runLength brace (d :: rest) = 0 := by
            intro d rest blank
            rw [runLength_cons, if_neg]
            rintro rfl
            rw [bare] at blank
            cases blank
          rw [none c text blank, collapseChars, if_pos blank]
          split
          · rename_i onward
            obtain ⟨d, isHead, blankHead⟩ := (Option.any_eq_true _ _).mp onward
            obtain ⟨rest, rfl⟩ := List.head?_eq_some_iff.mp isHead
            rw [ih, none d rest blankHead]
          · exact none ' ' _ rfl

theorem pairs_collapse (c : Char) (text : List Char) :
    Pairs c (collapseChars text) ↔ Pairs c text := by
  unfold Pairs
  exact and_congr_right fun brace => by rw [runLength_collapse brace]

theorem escapeChars_blank (text : List Char) :
    (escapeChars text).head?.any isBlank = text.head?.any isBlank := by
  cases text with
  | nil => rfl
  | cons c text =>
      by_cases pairs : Pairs c text
      · obtain ⟨rest, rfl, _⟩ := pairs.partner
        rw [escapeChars_pair pairs]
        simp [not_blank_of_brace pairs.1]
        rfl
      · rw [escapeChars_plain pairs]
        rfl

/-- Escaping leaves blanks alone, and collapsing leaves braces alone. -/
theorem collapse_escape (text : List Char) :
    collapseChars (escapeChars text) = escapeChars (collapseChars text) := by
  induction text using escape_induction with
  | nil => rfl
  | pair c rest pairs ih =>
      have bare := not_blank_of_brace pairs.1
      have still := (pairs_collapse c (c :: rest)).mpr pairs
      rw [collapseChars_bare bare] at still
      rw [escapeChars_pair pairs, collapseChars_bare rfl, collapseChars_bare bare,
        collapseChars_bare bare, ih, collapseChars_bare bare, collapseChars_bare bare,
        escapeChars_pair still]
  | plain c text alone ih =>
      have still : ¬ Pairs c (collapseChars text) := fun pairs =>
        alone ((pairs_collapse c text).mp pairs)
      rw [escapeChars_plain alone]
      cases blank : isBlank c with
      | false =>
          rw [collapseChars_bare blank, collapseChars_bare blank, escapeChars_plain still, ih]
      | true =>
          simp only [collapseChars, blank, if_true, escapeChars_blank]
          split
          · exact ih
          · rw [ih, escapeChars_plain (not_pairs rfl _)]

/-- An escaped text that is collapsed and rendered is the text with its blanks collapsed. -/
theorem unescape_collapsed (text : String) : unescape (collapse (escape text)) = collapse text := by
  simp only [unescape, collapse, escape, String.toList_ofList, collapse_escape, unescape_escape]

end Collapse

section Parts

theorem escapeChars_eq_nil {text : List Char} : escapeChars text = [] ↔ text = [] := by
  cases text with
  | nil => simp [escapeChars]
  | cons c text =>
      by_cases pairs : Pairs c text
      · obtain ⟨rest, rfl, _⟩ := pairs.partner
        simp [escapeChars_pair pairs]
      · simp [escapeChars_plain pairs]

theorem escapeChars_getLast? (text : List Char) : (escapeChars text).getLast? = text.getLast? := by
  induction text using escape_induction with
  | nil => rfl
  | pair c rest pairs ih => simp [escapeChars_pair pairs, List.getLast?_cons, ih]
  | plain c text alone ih => simp [escapeChars_plain alone, List.getLast?_cons, ih]

theorem runLength_append {brace : Char} {behind : List Char} (apart : behind.head? ≠ some brace)
    (text : List Char) : runLength brace (text ++ behind) = runLength brace text := by
  induction text with
  | nil =>
      cases behind with
      | nil => rfl
      | cons c rest =>
          rw [List.nil_append, runLength_cons, if_neg fun same => apart (congrArg some same)]
          rfl
  | cons c text ih => rw [List.cons_append, runLength_cons, runLength_cons, ih]

theorem escapeChars_append {behind : List Char}
    (apart : ∀ c ∈ behind.head?, isBrace c = false) (text : List Char) :
    escapeChars (text ++ behind) = escapeChars text ++ escapeChars behind := by
  have same : ∀ c text, Pairs c (text ++ behind) ↔ Pairs c text := by
    intro c text
    unfold Pairs
    refine and_congr_right fun brace => ?_
    rw [runLength_append fun isHead => ?_]
    rw [apart c isHead] at brace
    cases brace
  induction text using escape_induction with
  | nil => rfl
  | pair c rest pairs ih =>
      have still : Pairs c (c :: (rest ++ behind)) := (same c (c :: rest)).mpr pairs
      rw [escapeChars_pair pairs, List.cons_append, List.cons_append, escapeChars_pair still, ih]
      rfl
  | plain c text alone ih =>
      rw [escapeChars_plain alone, List.cons_append,
        escapeChars_plain fun pairs => alone ((same c text).mp pairs), ih]
      rfl

theorem escapeChars_lead {lead : List Char} (bare : ∀ c ∈ lead, isBrace c = false)
    (text : List Char) : escapeChars (lead ++ text) = lead ++ escapeChars text := by
  induction lead with
  | nil => rfl
  | cons c lead ih =>
      rw [List.cons_append, escapeChars_plain (not_pairs (bare c List.mem_cons_self) _),
        ih fun d member => bare d (List.mem_cons_of_mem c member)]
      rfl

def EndsBare (brace : Char) (text : List Char) : Prop :=
  ∃ before, text = before ++ [brace] ∧ before.getLast? ≠ some '\\'

theorem endsBare_iff {brace : Char} {text : List Char} :
    EndsBare brace text ↔
      text.getLast? = some brace ∧ text.dropLast.getLast? ≠ some '\\' := by
  constructor
  · rintro ⟨before, rfl, bare⟩
    simpa using bare
  · rintro ⟨isLast, bare⟩
    obtain ⟨before, rfl⟩ := List.getLast?_eq_some_iff.mp isLast
    exact ⟨before, rfl, by simpa using bare⟩

instance (brace : Char) (text : List Char) : Decidable (EndsBare brace text) :=
  decidable_of_iff _ endsBare_iff.symm

theorem endsBare_cons {brace c : Char} {text : List Char} :
    EndsBare brace (c :: text) ↔
      (text = [] ∧ c = brace) ∨ (EndsBare brace text ∧ (c = '\\' → text ≠ [brace])) := by
  constructor
  · rintro ⟨before, split, bare⟩
    cases before with
    | nil =>
        obtain ⟨rfl, rfl⟩ := List.cons.inj split
        exact Or.inl ⟨rfl, rfl⟩
    | cons d before =>
        obtain ⟨rfl, rfl⟩ := List.cons.inj split
        rw [List.getLast?_cons] at bare
        refine Or.inr ⟨⟨before, rfl, fun slash => bare (by rw [slash]; rfl)⟩, ?_⟩
        rintro rfl only
        obtain rfl : before = [] := List.append_left_eq_self.mp only
        exact bare rfl
  · rintro (⟨rfl, rfl⟩ | ⟨⟨before, rfl, bare⟩, apart⟩)
    · exact ⟨[], rfl, by simp⟩
    · refine ⟨c :: before, rfl, ?_⟩
      rw [List.getLast?_cons]
      cases last : before.getLast? with
      | none =>
          obtain rfl := List.getLast?_eq_none_iff.mp last
          exact fun slash => apart (Option.some.inj slash) rfl
      | some d => exact fun slash => bare (last.trans slash)

theorem escapeChars_eq_singleton {text : List Char} {c : Char} :
    escapeChars text = [c] ↔ text = [c] := by
  cases text with
  | nil => simp [escapeChars]
  | cons d text =>
      by_cases pairs : Pairs d text
      · obtain ⟨rest, rfl, _⟩ := pairs.partner
        simp [escapeChars_pair pairs]
      · simp [escapeChars_plain pairs, escapeChars_eq_nil]

theorem endsBare_escape {brace : Char} (text : List Char) :
    EndsBare brace (escapeChars text) ↔ EndsBare brace text := by
  induction text using escape_induction with
  | nil => exact Iff.rfl
  | pair c rest pairs ih =>
      have notSlash : c ≠ '\\' := by
        rintro rfl
        cases pairs.1
      simp [escapeChars_pair pairs, endsBare_cons, ih, escapeChars_eq_nil, notSlash]
  | plain c text alone ih =>
      rw [escapeChars_plain alone, endsBare_cons, endsBare_cons, ih, escapeChars_eq_nil]
      simp [escapeChars_eq_singleton]

end Parts

section Trim

def trimBlanks (text : List Char) : List Char := (text.dropWhile isBlank).rdropWhile isBlank

def strip (text : String) : String := String.ofList (trimBlanks text.toList)

theorem trimBlanks_ends {text : List Char} (visible : ∃ c ∈ text, isBlank c = false) :
    (∃ c, (trimBlanks text).head? = some c ∧ isBlank c = false) ∧
      ∃ c, (trimBlanks text).getLast? = some c ∧ isBlank c = false := by
  obtain ⟨c, member, bare⟩ := visible
  have some : text.dropWhile isBlank ≠ [] := fun none =>
    Bool.false_ne_true (bare.symm.trans (List.dropWhile_eq_nil_iff.mp none c member))
  have first := List.head_dropWhile_not isBlank some
  have filled : trimBlanks text ≠ [] := by
    intro none
    have blank := List.rdropWhile_eq_nil_iff.mp none _ (List.head_mem some)
    exact Bool.false_ne_true (first.symm.trans blank)
  constructor
  · obtain ⟨d, rest, isTrimmed⟩ := List.exists_cons_of_ne_nil filled
    refine ⟨d, by rw [isTrimmed]; rfl, ?_⟩
    -- The first character is still the first one when only the end is cut off.
    have split : trimBlanks text ++ (text.dropWhile isBlank).rtakeWhile isBlank =
        text.dropWhile isBlank := List.rdropWhile_append_rtakeWhile
    rw [isTrimmed, List.cons_append] at split
    have same := congrArg List.head? split
    rw [List.head?_cons, List.head?_eq_some_head some] at same
    exact (Option.some.inj same).symm ▸ first
  · exact ⟨_, List.getLast?_eq_some_getLast filled,
      Bool.eq_false_iff.mpr (List.rdropWhile_last_not isBlank _ filled)⟩

theorem trimBlanks_split (text : List Char) :
    ∃ lead trail, text = lead ++ trimBlanks text ++ trail ∧ (∀ c ∈ lead, isBlank c = true) ∧
      ∀ c ∈ trail, isBlank c = true := by
  refine ⟨text.takeWhile isBlank, (text.dropWhile isBlank).rtakeWhile isBlank, ?_,
    fun c => List.mem_takeWhile_imp, fun c => List.mem_rtakeWhile_imp⟩
  rw [List.append_assoc, trimBlanks, List.rdropWhile_append_rtakeWhile,
    List.takeWhile_append_dropWhile]

theorem escape_split (text : List Char) :
    ∃ lead trail, escapeChars text = lead ++ escapeChars (trimBlanks text) ++ trail ∧
      (∀ c ∈ lead, isBlank c = true) ∧ ∀ c ∈ trail, isBlank c = true := by
  obtain ⟨lead, trail, split, leadBlank, trailBlank⟩ := trimBlanks_split text
  have bare : ∀ c, isBlank c = true → isBrace c = false := fun c blank =>
    Bool.eq_false_iff.mpr fun brace => by
      rw [not_blank_of_brace brace] at blank
      cases blank
  have leadBare : ∀ c ∈ lead, isBrace c = false := fun c member => bare c (leadBlank c member)
  have trailBare : ∀ c ∈ trail, isBrace c = false := fun c member => bare c (trailBlank c member)
  have trailEscaped := escapeChars_lead trailBare []
  rw [List.append_nil, escapeChars, List.append_nil] at trailEscaped
  refine ⟨lead, trail, ?_, leadBlank, trailBlank⟩
  calc escapeChars text = escapeChars (lead ++ (trimBlanks text ++ trail)) := by
        rw [← List.append_assoc, ← split]
    _ = lead ++ (escapeChars (trimBlanks text) ++ escapeChars trail) := by
        rw [escapeChars_lead leadBare, escapeChars_append fun c isHead =>
          trailBare c (List.mem_of_mem_head? isHead)]
    _ = _ := by rw [trailEscaped, List.append_assoc]

theorem escape_ends {text : List Char} (visible : ∃ c ∈ text, isBlank c = false) :
    (∃ c, (escapeChars (trimBlanks text)).head? = some c ∧ isBlank c = false) ∧
      ∃ c, (escapeChars (trimBlanks text)).getLast? = some c ∧ isBlank c = false := by
  obtain ⟨⟨c, isHead, bare⟩, last⟩ := trimBlanks_ends visible
  constructor
  · have still := escapeChars_blank (trimBlanks text)
    rw [isHead, Option.any_some, bare] at still
    cases first : (escapeChars (trimBlanks text)).head? with
    | none =>
        rw [escapeChars_eq_nil.mp (List.head?_eq_none_iff.mp first)] at isHead
        cases isHead
    | some d =>
        rw [first, Option.any_some] at still
        exact ⟨d, rfl, still⟩
  · rwa [escapeChars_getLast?]

end Trim

end Stencil.Text
