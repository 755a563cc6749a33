import Stencil.Proofs.Accounting
import Stencil.Proofs.EscapedText

/-!
Escaped text next to real markers. Escaping looks at one text only, and a marker is
looked for from left to right with one character of sight behind it. So a text that
ends in a brace meets a marker of the same brace behind it: the marker is then found
one place too early. With any other end the text is read as it is on its own, inside
of a token and in front of one.
-/

namespace Stencil

namespace Source

variable {source : Source}

theorem unmarked_of_bare {index : Nat} {c : Char} (has : source.HasAt index c)
    (single : isBrace c = false) :
    ¬ source.Marks .opening index ∧ ¬ source.Marks .closing index := by
  constructor
  · intro marks
    rw [has.unique marks.1] at single
    cases single
  · intro marks
    rw [has.unique marks.1] at single
    cases single

section Within

variable {front middle back : List Char} (holds : source.toList = front ++ middle ++ back)
include holds

theorem blank_middle (blank : ∀ c ∈ middle, isBlank c = true) :
    source.Blank front.length (front.length + middle.length) := by
  refine ⟨Nat.le_add_right _ _, fun index after before => ?_⟩
  obtain ⟨index, rfl⟩ := Nat.exists_eq_add_of_le after
  have inside : index < middle.length := by omega
  have found := List.getElem?_eq_getElem inside
  exact ⟨_, (hasAt_middle holds inside).mpr found, blank _ (List.getElem_mem inside)⟩

theorem hasAt_head {c : Char} (isHead : middle.head? = some c) : source.HasAt front.length c := by
  obtain ⟨rest, rfl⟩ := List.head?_eq_some_iff.mp isHead
  exact (hasAt_middle holds (Nat.succ_pos _)).mpr rfl

theorem hasAt_last {c : Char} (isLast : middle.getLast? = some c) :
    ∃ last, last + 1 = front.length + middle.length ∧ front.length ≤ last ∧
      source.HasAt last c := by
  obtain ⟨rest, rfl⟩ := List.getLast?_eq_some_iff.mp isLast
  refine ⟨front.length + rest.length, ?_, Nat.le_add_right _ _, ?_⟩
  · simp
    omega
  · rw [hasAt_middle holds (by simp), List.getElem?_append_right (Nat.le_refl _)]
    simp

end Within

section Escaped

variable {front text back : List Char}
variable (holds : source.toList = front ++ Text.escapeChars text ++ back)
include holds

/-- An escaped text that does not end in a backslash hides nothing behind it. -/
theorem behind_escaped (filled : text ≠ []) (noSlash : text.getLast? ≠ some '\\') :
    ¬ source.Hidden (front.length + (Text.escapeChars text).length) := by
  rw [← List.length_append, hidden_behind holds, List.getLast?_append, Text.escapeChars_getLast?]
  cases last : text.getLast? with
  | none => exact absurd (List.getLast?_eq_none_iff.mp last) filled
  | some c => exact fun slash => noSlash (last.trans slash)

/-- A bare brace at the end of an escaped text makes a marker with one behind it. -/
theorem escaped_meets {brace : Char} (ends : Text.EndsBare brace text)
    (meets : back.head? = some brace) (bare : front.getLast? ≠ some '\\') :
    ∃ place, place + 1 = front.length + (Text.escapeChars text).length ∧ front.length ≤ place ∧
      source.Marks ⟨brace, brace⟩ place := by
  obtain ⟨before, split, noSlash⟩ := (Text.endsBare_escape text).mpr ends
  have size : (Text.escapeChars text).length = before.length + 1 := by
    rw [split, List.length_append]
    rfl
  have parted : source.toList = (front ++ before) ++ ([brace] ++ back) := by
    rw [holds, split]
    simp
  refine ⟨front.length + before.length, by omega, Nat.le_add_right _ _, ?_, ?_, ?_⟩
  · rw [hasAt_middle holds (by omega), split]
    simp
  · have next := (hasAt_back holds 0).mpr (List.head?_eq_getElem?.symm.trans meets)
    rwa [size] at next
  · rw [← List.length_append, hidden_behind parted, List.getLast?_append]
    cases last : before.getLast? with
    | none => exact bare
    | some c => exact fun slash => noSlash (last.trans slash)

end Escaped

end Source

theorem Token.bodySpan_trimmed {source : Source} {front lead middle trail back : List Char}
    (holds : source.toList = front ++ lead ++ middle ++ trail ++ back)
    (leadBlank : ∀ c ∈ lead, isBlank c = true) (trailBlank : ∀ c ∈ trail, isBlank c = true)
    {first last : Char} (isFirst : middle.head? = some first) (firstBare : isBlank first = false)
    (isLast : middle.getLast? = some last) (lastBare : isBlank last = false) :
    bodySpan source (source.skipBlanks front.length) (front ++ lead ++ middle ++ trail).length =
      .ok (some ⟨(front ++ lead).length, (front ++ lead ++ middle).length⟩) := by
  have leadHolds : source.toList = front ++ lead ++ (middle ++ trail ++ back) := by
    simp only [holds, List.append_assoc]
  have middleHolds : source.toList = (front ++ lead) ++ middle ++ (trail ++ back) := by
    simp only [holds, List.append_assoc]
  have blanks := Source.blank_middle leadHolds leadBlank
  rw [← List.length_append] at blanks
  obtain ⟨place, isEnd, ahead, has⟩ := Source.hasAt_last middleHolds isLast
  have stop : (front ++ lead ++ middle).length = place + 1 := by
    rw [isEnd, List.length_append]
  have behind := Source.blank_middle holds trailBlank
  rw [← List.length_append, stop] at behind
  rw [Source.skipBlanks_eq blanks (Source.hasAt_head middleHolds isFirst) firstBare, stop]
  exact bodySpan_eq ahead (Nat.lt_of_succ_le behind.1) behind has lastBare

namespace Evaluation

open Source

def assigned (text : String) : String := "\x7b\x7bv$ " ++ Text.escape text ++ "\x7d\x7d"

def assignedForest (text : String) : Forest :=
  .cons ⟨.variable, some "v", {}⟩
    (.cons ⟨.text, some (Text.collapse (Text.escape (Text.strip text))), {}⟩ .nil .nil) .nil

section Assigned

theorem assigned_holds (text : String) : (ofString (assigned text)).toList =
    ['\x7b', '\x7b', 'v', '$', ' '] ++ Text.escapeChars text.toList ++ ['\x7d', '\x7d'] := by
  simp [assigned, Text.escape]

theorem assigned_size (text : String) :
    (ofString (assigned text)).size = 5 + (Text.escapeChars text.toList).length + 2 := by
  rw [size_eq_length, assigned_holds]
  simp
  omega

theorem assigned_head (text : String) {index : Nat} {c : Char}
    (found : ['\x7b', '\x7b', 'v', '$', ' '][index]? = some c) :
    (ofString (assigned text)).HasAt index c := by
  rw [hasAt_iff, assigned_holds, List.append_assoc]
  obtain ⟨inside, _⟩ := List.getElem?_eq_some_iff.mp found
  rw [List.getElem?_append_left inside, found]

theorem assigned_opens (text : String) : (ofString (assigned text)).Marks .opening 0 := by
  refine ⟨assigned_head text rfl, assigned_head text rfl, ?_⟩
  rintro ⟨_, ⟨⟩, _⟩

/-- The first marker in the text, or else the one behind it, closes the variable. -/
theorem assigned_closes {text : String} {place : Nat} (ahead : 5 ≤ place)
    (marks : (ofString (assigned text)).Marks .closing place)
    (unmarked : ∀ other, 5 ≤ other → other < place →
      ¬ (ofString (assigned text)).Marks .opening other ∧
        ¬ (ofString (assigned text)).Marks .closing other) :
    (ofString (assigned text)).Closes 0 2 place := by
  refine .of_unmarked marks (by omega) fun other after before => ?_
  by_cases inText : 5 ≤ other
  · exact unmarked other inText before
  · obtain rfl | rfl | rfl : other = 2 ∨ other = 3 ∨ other = 4 := by omega
    · exact unmarked_of_bare (assigned_head text (c := 'v') rfl) rfl
    · exact unmarked_of_bare (assigned_head text (c := '$') rfl) rfl
    · exact unmarked_of_bare (assigned_head text (c := ' ') rfl) rfl

variable {text : String} (visible : ∃ c ∈ text.toList, isBlank c = false)
include visible

theorem assigned_body : ∃ span,
    Token.bodySpan (ofString (assigned text)) ((ofString (assigned text)).skipBlanks 4)
        (5 + (Text.escapeChars text.toList).length) = .ok (some span) ∧
    Outline.read (ofString (assigned text)) span =
      .ok (.cons ⟨.text, some (Text.collapse (Text.escape (Text.strip text))), {}⟩ .nil .nil) := by
  obtain ⟨lead, trail, split, leadBlank, trailBlank⟩ := Text.escape_split text.toList
  obtain ⟨⟨c, isHead, headBare⟩, d, isLast, lastBare⟩ := Text.escape_ends visible
  have holds : (ofString (assigned text)).toList = ['\x7b', '\x7b', 'v', '$'] ++ (' ' :: lead) ++
      Text.escapeChars (Text.trimBlanks text.toList) ++ trail ++ ['\x7d', '\x7d'] := by
    rw [assigned_holds, split]
    simp
  have closing : (['\x7b', '\x7b', 'v', '$'] ++ (' ' :: lead) ++
      Text.escapeChars (Text.trimBlanks text.toList) ++ trail).length =
        5 + (Text.escapeChars text.toList).length := by
    rw [split]
    simp
    omega
  have size := assigned_size text
  have bodied := Token.bodySpan_trimmed holds (List.forall_mem_cons.mpr ⟨rfl, leadBlank⟩)
    trailBlank isHead headBare isLast lastBare
  rw [closing] at bodied
  refine ⟨_, bodied, ?_⟩
  generalize ['\x7b', '\x7b', 'v', '$'] ++ (' ' :: lead) = front at holds closing bodied ⊢
  have filled := List.length_pos_of_mem (List.mem_of_mem_head? isHead)
  rw [List.append_assoc] at holds
  simp only [List.length_append] at closing ⊢
  rw [Outline.read_run (by simp only; omega) (Nat.lt_add_of_pos_right filled)
    (escaped_runs holds), slice_middle holds]
  simp only [Text.collapse, Text.escape, Text.strip, String.toList_ofList]

variable (noSlash : text.toList.getLast? ≠ some '\\')
include noSlash

theorem outline_assigned (apart : ¬ Text.EndsBare '\x7d' text.toList) :
    outline (assigned text) = .ok (assignedForest text) := by
  obtain ⟨span, bodied, body⟩ := assigned_body visible
  have holds := assigned_holds text
  have size := assigned_size text
  have isSign : (ofString (assigned text)).HasAt 3 '$' := assigned_head text rfl
  have name : (ofString (assigned text)).slice 2 3 = ['v'] := by
    rw [slice_eq, holds]
    rfl
  have named : ∀ place, 2 ≤ place → place < 3 →
      ∃ c, (ofString (assigned text)).HasAt place c ∧ isNameChar c = true := by
    intro place after before
    obtain rfl : place = 2 := by omega
    exact ⟨'v', assigned_head text rfl, rfl⟩
  have filled : text.toList ≠ [] :=
    let ⟨_, member, _⟩ := visible
    List.ne_nil_of_mem member
  have closes : (ofString (assigned text)).Closes 0 2
      (5 + (Text.escapeChars text.toList).length) := by
    refine assigned_closes (Nat.le_add_right _ _) ⟨(hasAt_back holds 0).mpr rfl,
      (hasAt_back holds 1).mpr rfl, behind_escaped holds filled noSlash⟩ ?_
    intro other after before
    exact ⟨escaped_unmarked holds rfl (fun _ => by simp) after before,
      escaped_unmarked holds rfl (fun ends => absurd ends apart) after before⟩
  have token := Token.read_sign (Nat.le_refl _) closes (Nat.le_of_eq size.symm) (by omega) isSign
    named bodied
  have pieces := Level.pieces_token (Nat.le_refl _) (by omega) (assigned_opens text) token
  rw [← size, Level.pieces_done, map_ok] at pieces
  rw [outline, Outline.read_eq _ (Nat.le_refl _), Level.read_filled pieces]
  simp [Outline.bodySpans, Piece.body, body, Outline.hang, Outline.assemble, Piece.node, name,
    assignedForest]

omit visible noSlash in
theorem assigned_apart {node : Node} {body : Forest}
    (read : outline (assigned text) = .ok (.cons node body .nil)) :
    ¬ Text.EndsBare '\x7d' text.toList := by
  intro ends
  have holds := assigned_holds text
  have size := assigned_size text
  obtain ⟨place, next, ahead, marks⟩ := escaped_meets holds ends rfl (by simp)
  rw [show ['\x7b', '\x7b', 'v', '$', ' '].length = 5 from rfl] at next ahead
  have early := assigned_closes ahead marks fun other after before =>
    have inside : other - 5 + 1 < (Text.escapeChars text.toList).length := by omega
    have same : 5 + (other - 5) = other := by omega
    ⟨same ▸ escaped_unpaired holds rfl inside, same ▸ escaped_unpaired holds rfl inside⟩
  have accounts := Outline.readFor_accounts _ _ (Nat.le_refl _) (by simp only; omega) read
  obtain ⟨_, _, rest, _, closing, split, spelled, after⟩ :=
    accounts.token_here (by simp only; omega) (assigned_opens text)
  cases split
  have whole := after.of_nil
  have same := spelled.closes.unique early
  simp only at whole
  omega

end Assigned

def followed (text : String) : String := Text.escape text ++ "\x7b\x7bw$\x7d\x7d"

def followedForest (text : String) : Forest :=
  .cons ⟨.text, some (Text.collapse (Text.escape text)), {}⟩ .nil
    (.cons ⟨.variable, some "w", {}⟩ .nil .nil)

section Followed

theorem followed_holds (text : String) : (ofString (followed text)).toList =
    [] ++ Text.escapeChars text.toList ++ ['\x7b', '\x7b', 'w', '$', '\x7d', '\x7d'] := by
  simp [followed, Text.escape]

theorem followed_size (text : String) :
    (ofString (followed text)).size = (Text.escapeChars text.toList).length + 6 := by
  rw [size_eq_length, followed_holds]
  simp

theorem followed_behind (text : String) (index : Nat) {c : Char}
    (found : ['\x7b', '\x7b', 'w', '$', '\x7d', '\x7d'][index]? = some c) :
    (ofString (followed text)).HasAt ((Text.escapeChars text.toList).length + index) c := by
  have has := (hasAt_back (followed_holds text) index).mpr found
  rwa [List.length_nil, Nat.zero_add] at has

theorem followed_token (text : String) :
    Token.read (ofString (followed text)) (Text.escapeChars text.toList).length
        (ofString (followed text)).size =
      .ok ⟨⟨.variable, some "w", {}⟩, none, (ofString (followed text)).size⟩ := by
  generalize isLength : (Text.escapeChars text.toList).length = length
  have at_ : ∀ index {c : Char}, ['\x7b', '\x7b', 'w', '$', '\x7d', '\x7d'][index]? = some c →
      (ofString (followed text)).HasAt (length + index) c := by
    intro index c found
    rw [← isLength]
    exact followed_behind text index found
  have size := followed_size text
  rw [isLength] at size
  have closes : (ofString (followed text)).Closes 0 (length + 2) (length + 4) := by
    refine .of_unmarked ⟨at_ 4 rfl, at_ 5 rfl, ?_⟩ (by omega) fun other after before => ?_
    · rintro ⟨before, same, slash⟩
      obtain rfl : before = length + 3 := by omega
      cases slash.unique (at_ 3 rfl)
    · obtain rfl | rfl : other = length + 2 ∨ other = length + 3 := by omega
      · exact unmarked_of_bare (at_ 2 rfl) rfl
      · exact unmarked_of_bare (at_ 3 rfl) rfl
  have named : ∀ place, length + 2 ≤ place → place < length + 3 →
      ∃ c, (ofString (followed text)).HasAt place c ∧ isNameChar c = true := by
    intro place after before
    obtain rfl : place = length + 2 := by omega
    exact ⟨'w', at_ 2 rfl, rfl⟩
  have stays := skipBlanks_eq (.empty (length + 4)) (at_ 4 rfl) rfl
  have bodied : Token.bodySpan (ofString (followed text))
      ((ofString (followed text)).skipBlanks (length + 3 + 1)) (length + 4) = .ok none := by
    rw [stays, Token.bodySpan, if_neg (Nat.lt_irrefl _)]
    rfl
  have name : (ofString (followed text)).slice (length + 2) (length + 3) = ['w'] := by
    rw [slice_eq, followed_holds, ← isLength]
    simp
  have read := Token.read_sign (Nat.le_refl _) closes (Nat.le_of_eq size.symm) (by omega)
    (at_ 3 rfl) named bodied
  rw [name] at read
  rw [read, size]

variable {text : String}

theorem outline_followed (filled : text.toList ≠ []) (noSlash : text.toList.getLast? ≠ some '\\')
    (apart : ¬ Text.EndsBare '\x7b' text.toList) :
    outline (followed text) = .ok (followedForest text) := by
  have holds := followed_holds text
  have size := followed_size text
  have hidesNone := behind_escaped holds filled noSlash
  have slice := slice_middle holds
  have bare : ∀ other, other < (Text.escapeChars text.toList).length →
      ¬ (ofString (followed text)).Marks .opening other ∧
        ¬ (ofString (followed text)).Marks .closing other := fun other before =>
    have within := Nat.lt_of_lt_of_eq before (Nat.zero_add _).symm
    ⟨escaped_unmarked holds rfl (fun ends => absurd ends apart) (Nat.zero_le _) within,
      escaped_unmarked holds rfl (fun _ => by simp) (Nat.zero_le _) within⟩
  rw [List.length_nil, Nat.zero_add] at hidesNone slice
  have marks : (ofString (followed text)).Marks .opening (Text.escapeChars text.toList).length :=
    ⟨followed_behind text 0 rfl, followed_behind text 1 rfl, hidesNone⟩
  have runs : (ofString (followed text)).Runs 0 (Text.escapeChars text.toList).length
      (ofString (followed text)).size :=
    ⟨Nat.zero_le _, by omega, fun other _ before _ => bare other before,
      fun _ => ⟨by omega, marks⟩⟩
  have room : 0 < (Text.escapeChars text.toList).length :=
    List.length_pos_of_ne_nil (mt Text.escapeChars_eq_nil.mp filled)
  have pieces := Level.pieces_run (Nat.le_refl _) room runs
  rw [Level.pieces_token (Nat.le_refl _) (by omega) marks (followed_token text),
    Level.pieces_done, map_ok, map_ok] at pieces
  rw [outline, Outline.read_eq _ (Nat.le_refl _), Level.read_filled pieces, slice, followedForest,
    Text.collapse, Text.escape, String.toList_ofList]
  rfl

/-- A text that ends in an opening brace lets the token begin early, so that its
name would begin with a brace. -/
theorem followed_apart {forest : Forest} (read : outline (followed text) = .ok forest) :
    ¬ Text.EndsBare '\x7b' text.toList := by
  intro ends
  have holds := followed_holds text
  have size := followed_size text
  obtain ⟨place, next, _, marks⟩ := escaped_meets holds ends rfl (by simp)
  rw [List.length_nil, Nat.zero_add] at next
  have accounts := Outline.readFor_accounts _ _ (Nat.le_refl _) (by simp only; omega) read
  have first : ∀ other, 0 ≤ other → other < place →
      ¬ (ofString (followed text)).Marks .opening other := by
    intro other _ before
    have within : other + 1 < (Text.escapeChars text.toList).length := by omega
    have unpaired : ¬ (ofString (followed text)).Marks .opening (0 + other) :=
      escaped_unpaired holds rfl within
    rwa [Nat.zero_add] at unpaired
  obtain ⟨_, _, _, spelled⟩ :=
    accounts.token_at (Nat.zero_le place) (by simp only; omega) marks first
  have has := followed_behind text 1 rfl
  rw [← next] at has
  rcases spelled.head has with blank | name
  · cases blank
  · cases name

end Followed

end Evaluation

end Stencil
