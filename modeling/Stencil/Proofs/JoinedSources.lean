import Stencil.Proofs.Accounting
import Stencil.Proofs.EquivalentParses

/-!
One source behind another. If nothing at the end of the first one meets the start
of the second one, no token, run of blanks or escape reaches across the seam: the
tokens on both sides are read as before, and a run of text that ends at the seam
goes on into the one that begins there. So the outline of both is the outline of
the first with that of the second behind it.
-/

namespace Stencil

/-- Nothing at the end of a text meets the start of what follows: no backslash comes
before it, and neither two blanks nor two equal braces stand together. -/
structure Text.Apart (first second : List Char) : Prop where
  bare : first.getLast? ≠ some '\\'
  blanks : ∀ c d, first.getLast? = some c → second.head? = some d → isBlank c = true →
    isBlank d = false
  braces : ∀ c, first.getLast? = some c → isBrace c = true → second.head? ≠ some c

def Node.Vacant (node : Node) : Prop := node.kind = .text ∧ node.text = some ""

instance : DecidablePred Node.Vacant := fun _ => inferInstanceAs (Decidable (_ ∧ _))

def Node.joined (node other : Node) : Node :=
  { node with text := some (node.text.getD "" ++ other.text.getD "") }

theorem Node.Normal.literal {node : Node} (normal : node.Normal) (isText : node.kind = .text) :
    ∃ text, node = ⟨.text, some text, {}⟩ := by
  obtain ⟨text, isWorded⟩ := Option.isSome_iff_exists.mp normal.worded
  have plain := normal.plain (by rw [isText]; exact nofun)
  exact ⟨text, by rw [← isText, ← isWorded, ← plain]⟩

namespace Forest

/-- A last node with a chain behind it. Two texts that meet become one, and a vacant
text beside anything else is left out. -/
def meet (node : Node) (body : Forest) : Forest → Forest
  | .nil => .cons node body .nil
  | .cons other otherBody rest =>
      if node.kind = .text ∧ other.kind = .text then .cons (node.joined other) body rest
      else if node.Vacant then .cons other otherBody rest
      else if other.Vacant then .cons node body rest
      else .cons node body (.cons other otherBody rest)

def join : Forest → Forest → Forest
  | .nil, other => other
  | .cons node body .nil, other => meet node body other
  | .cons node body (.cons next nextBody rest), other =>
      .cons node body (join (.cons next nextBody rest) other)

theorem join_cons (node : Node) (body : Forest) {rest : Forest} (filled : rest ≠ .nil)
    (other : Forest) : join (.cons node body rest) other = .cons node body (join rest other) := by
  cases rest with
  | nil => exact absurd rfl filled
  | cons => rfl

theorem meet_apart {node other : Node} (body otherBody rest : Forest)
    (noTexts : ¬ (node.kind = .text ∧ other.kind = .text)) (noVacant : ¬ node.Vacant)
    (otherNoVacant : ¬ other.Vacant) :
    meet node body (.cons other otherBody rest) = .cons node body (.cons other otherBody rest) := by
  rw [meet, if_neg noTexts, if_neg noVacant, if_neg otherNoVacant]

theorem join_vacant_left {forest : Forest} (normal : forest.Normal) (filled : forest ≠ .nil) :
    join (.cons ⟨.text, some "", {}⟩ .nil .nil) forest = forest := by
  cases forest with
  | nil => exact absurd rfl filled
  | cons node body rest =>
      obtain ⟨nodeNormal, bare, _⟩ := normal
      by_cases isText : node.kind = .text
      · obtain ⟨text, same⟩ := nodeNormal.literal isText
        obtain rfl := (bare isText).1
        subst same
        simp [join, meet, Node.joined]
      · simp [join, meet, isText, Node.Vacant]

theorem join_vacant_right {forest : Forest} (normal : forest.Normal) (filled : forest ≠ .nil) :
    join forest (.cons ⟨.text, some "", {}⟩ .nil .nil) = forest := by
  induction forest with
  | nil => exact absurd rfl filled
  | cons node body rest _ ih =>
      obtain ⟨nodeNormal, _, _, restNormal⟩ := normal
      cases rest with
      | nil =>
          by_cases isText : node.kind = .text
          · obtain ⟨text, same⟩ := nodeNormal.literal isText
            subst same
            simp [join, meet, Node.joined]
          · simp [join, meet, isText, Node.Vacant]
      | cons next nextBody rest =>
          rw [join_cons node body Forest.noConfusion, ih restNormal Forest.noConfusion]

end Forest

namespace Text

theorem getLast?_tail {c d : Char} {rest : List Char} (isLast : rest.getLast? = some c) :
    (d :: rest).getLast? = some c := by
  rw [List.getLast?_cons, isLast, Option.getD_some]

theorem collapseChars_append {first second : List Char}
    (apart : ∀ c d, first.getLast? = some c → second.head? = some d → isBlank c = true →
      isBlank d = false) :
    collapseChars (first ++ second) = collapseChars first ++ collapseChars second := by
  induction first with
  | nil => rfl
  | cons c rest ih =>
      have later := ih fun e f isLast => apart e f (getLast?_tail isLast)
      cases blank : isBlank c with
      | false =>
          rw [List.cons_append, collapseChars_bare blank, collapseChars_bare blank, later,
            List.cons_append]
      | true =>
          rw [List.cons_append, collapseChars_blank blank, collapseChars_blank blank, later]
          cases rest with
          | nil =>
              have bare : second.head?.any isBlank = false := by
                cases isHead : second.head? with
                | none => rfl
                | some d => exact apart c d rfl isHead blank
              simp [bare, collapseChars]
          | cons d rest =>
              rcases Bool.eq_false_or_eq_true (isBlank d) with blankNext | bareNext
              · simp [blankNext]
              · simp [bareNext]

/-- Induction along a text as escapes are taken away, with an escaped pair of braces
as one step. -/
theorem unescape_induction {motive : List Char → Prop} (nil : motive [])
    (pair : ∀ c rest, isBrace c = true → motive rest → motive ('\\' :: c :: c :: rest))
    (plain : ∀ c text, (c = '\\' → ∀ brace after, isBrace brace = true →
      text ≠ brace :: brace :: after) → motive text → motive (c :: text))
    (text : List Char) : motive text := by
  induction text using unescapeChars.induct with
  | case1 => exact nil
  | case2 rest ih => exact pair _ rest rfl ih
  | case3 rest ih => exact pair _ rest rfl ih
  | case4 c rest noOpening noClosing ih =>
      refine plain c rest (fun slash brace after isBrace same => ?_) ih
      simp only [Stencil.isBrace, Bool.or_eq_true, beq_iff_eq] at isBrace
      rcases isBrace with rfl | rfl
      · exact noOpening after slash same
      · exact noClosing after slash same

theorem unescapeChars_append {first second : List Char} (bare : first.getLast? ≠ some '\\')
    (braces : ∀ c, first.getLast? = some c → isBrace c = true → second.head? ≠ some c) :
    unescapeChars (first ++ second) = unescapeChars first ++ unescapeChars second := by
  induction first using unescape_induction with
  | nil => rfl
  | pair c rest isBrace ih =>
      have last : ∀ d, rest.getLast? = some d → ('\\' :: c :: c :: rest).getLast? = some d :=
        fun d isLast => getLast?_tail (getLast?_tail (getLast?_tail isLast))
      simp only [List.cons_append, unescapeChars_pair isBrace,
        ih (fun slash => bare (last _ slash)) fun d isLast => braces d (last d isLast)]
  | plain c rest alone ih =>
      have later := ih (fun slash => bare (getLast?_tail slash)) fun d isLast =>
        braces d (getLast?_tail isLast)
      rw [List.cons_append, unescapeChars_plain alone, unescapeChars_plain, later, List.cons_append]
      -- A pair behind a backslash does not begin before the seam.
      intro slash brace after isBrace same
      match rest with
      | [] => exact bare (by rw [slash]; rfl)
      | [last] =>
          obtain ⟨rfl, behind⟩ := List.cons.inj same
          exact braces last (getLast?_tail rfl) isBrace (by
            rw [show second = last :: after from behind]; rfl)
      | d :: e :: rest =>
          obtain ⟨rfl, rfl, _⟩ : d = brace ∧ e = brace ∧ rest ++ second = after := by
            simpa using same
          exact alone slash _ rest isBrace rfl

end Text

namespace Source

section Seam

variable {first second : String}

theorem size_joined (first second : String) :
    (ofString (first ++ second)).size = (ofString first).size + (ofString second).size := by
  simp [size_eq_length]

theorem stretches_first (first second : String) :
    (ofString (first ++ second)).Stretches (ofString first) id := by
  have size := size_joined first second
  have stretches := @stretches_slice (ofString (first ++ second)) 0 (ofString first).size
    (Nat.zero_le _) (by omega) (by rintro ⟨_, same, _⟩; cases same)
  have excerpt : String.ofList ((ofString (first ++ second)).slice 0 (ofString first).size) =
      first := by
    simp [slice_eq, size_eq_length]
  rw [excerpt] at stretches
  have same : (0 + · : Nat → Nat) = id := funext Nat.zero_add
  rwa [same] at stretches

theorem stretches_second (bare : first.toList.getLast? ≠ some '\\') :
    (ofString (first ++ second)).Stretches (ofString second) ((ofString first).size + ·) := by
  have size := size_joined first second
  have holds : (ofString (first ++ second)).toList = first.toList ++ second.toList := by simp
  have unhidden : ¬ (ofString (first ++ second)).Hidden (ofString first).size := by
    rw [size_eq_length, toList_ofString, hidden_behind holds]
    exact bare
  have stretches := @stretches_slice (ofString (first ++ second)) (ofString first).size
    ((ofString first).size + (ofString second).size) (Nat.le_add_right _ _) (by omega) unhidden
  have excerpt : String.ofList ((ofString (first ++ second)).slice (ofString first).size
      ((ofString first).size + (ofString second).size)) = second := by
    simp [slice_eq, size_eq_length]
  rwa [excerpt] at stretches

end Seam

end Source

namespace Token

theorem read_longer {source : Source} {start stop further : Nat} {token : Token}
    (read : Token.read source start stop = .ok token) (longer : stop ≤ further)
    (inside : further ≤ source.size) : Token.read source start further = .ok token := by
  obtain ⟨found, closes, rest⟩ := bind_eq_ok.mp read
  cases found with
  | none => cases rest
  | some closing =>
      obtain ⟨balanced, room⟩ :=
        (Source.closing_eq_some (Nat.le_trans longer inside)).mp (ofScan_eq_ok.mp closes)
      have still := (Source.closing_eq_some inside).mpr ⟨balanced, Nat.le_trans room longer⟩
      rw [Token.read, still]
      exact rest

theorem moved_id (token : Token) : token.moved id = token := by
  have same : Span.moved id = id := rfl
  simp [moved, same]

end Token

def Piece.Telling : Piece → Prop
  | .text chars => chars ≠ ""
  | .token read => read.node.kind ≠ .text

theorem Piece.Telling.moved {piece : Piece} (telling : piece.Telling) (place : Nat → Nat) :
    (piece.moved place).Telling := by
  cases piece <;> exact telling

theorem Level.Tiles.telling {source : Source} {stop start : Nat} {pieces : List Piece}
    (tiles : Tiles source stop start pieces) : ∀ piece ∈ pieces, piece.Telling := by
  induction tiles with
  | nil => simp
  | text start next rest room inside _ _ _ ih =>
      intro piece member
      rcases List.mem_cons.mp member with rfl | later
      · exact fun empty => (Forest.run_normal room inside).filled rfl (congrArg some empty)
      · exact ih piece later
  | token start closing token rest spelled _ ih =>
      intro piece member
      rcases List.mem_cons.mp member with rfl | later
      · exact spelled.normal.2
      · exact ih piece later

namespace Level

def join : List Piece → List Piece → List Piece
  | [], others => others
  | [.text text], .text other :: rest => .text (text ++ other) :: rest
  | piece :: rest, others => piece :: join rest others

section Equations

variable (text : String) (token : Token) (piece : Piece) (rest others : List Piece)

theorem join_token : join (.token token :: rest) others = .token token :: join rest others := by
  rw [join]
  exact nofun

theorem join_cons : join (.text text :: piece :: rest) others =
    .text text :: join (piece :: rest) others := by
  rw [join]
  exact nofun

theorem join_text (noText : ∀ other rest, others ≠ .text other :: rest) :
    join [.text text] others = .text text :: others := by
  cases others with
  | nil => rfl
  | cons piece rest =>
      cases piece with
      | text other => exact absurd rfl (noText other rest)
      | token token => rfl

end Equations

theorem join_filled {found : List Piece} (filled : found ≠ []) (others : List Piece) :
    ∃ piece rest, join found others = piece :: rest := by
  fun_cases Level.join found others with
  | case1 => exact absurd rfl filled
  | case2 => exact ⟨_, _, rfl⟩
  | case3 => exact ⟨_, _, rfl⟩

section Cases

variable {source : Source} {start stop : Nat} {found : List Piece}

theorem pieces_cases (inside : stop ≤ source.size) (room : start < stop)
    (read : pieces source ⟨start, stop⟩ = .ok found) :
    (∃ token rest, found = .token token :: rest ∧ start + 2 ≤ stop ∧
      source.Marks .opening start ∧ Token.read source start stop = .ok token ∧
      pieces source ⟨token.stop, stop⟩ = .ok rest) ∨
    ∃ next rest, found =
        .text (String.ofList (Text.collapseChars (source.slice start next))) :: rest ∧
      start < next ∧ source.Runs start next stop ∧ pieces source ⟨next, stop⟩ = .ok rest := by
  obtain ⟨opens, marked, isOpening⟩ := @Source.markerAt_answers source start stop .opening inside
  obtain ⟨count, isCount⟩ : ∃ count, stop - start = count + 1 := ⟨stop - start - 1, by omega⟩
  have step := read
  simp only [pieces, isCount, piecesFor, if_pos room, marked, ofScan_ok, ok_bind] at step
  cases opens with
  | true =>
      obtain ⟨fits, marks⟩ := isOpening.mp rfl
      obtain ⟨token, isToken, _⟩ := bind_eq_ok.mp step
      rw [pieces_token inside fits marks isToken] at read
      obtain ⟨rest, later, rfl⟩ := map_eq_ok read
      exact Or.inl ⟨token, rest, rfl, fits, marks, isToken, later⟩
  | false =>
      obtain ⟨next, isRun, _⟩ := bind_eq_ok.mp step
      have runs := (runStop_eq_ok inside (Nat.le_of_lt room)).mp isRun
      have ahead := ((runStop_settles inside room marked).of_ok isRun).1
      rw [pieces_run inside ahead runs] at read
      obtain ⟨rest, later, rfl⟩ := map_eq_ok read
      exact Or.inr ⟨next, rest, rfl, ahead, runs, later⟩

end Cases

section Join

open Source

variable {first second : String}

theorem runs_before {start next : Nat}
    (runs : (ofString first).Runs start next (ofString first).size)
    (before : next < (ofString first).size) :
    (ofString (first ++ second)).Runs start next (ofString (first ++ second)).size := by
  have size := size_joined first second
  have stretches := stretches_first first second
  obtain ⟨room, marks⟩ := runs.cut before
  refine ⟨runs.ahead, by omega, fun index after less _ => ?_, fun _ => ⟨by omega, ?_⟩⟩
  · have bare := runs.bare index after less (by omega)
    exact ⟨(not_congr (stretches.marks_iff .opening rfl rfl (by omega))).mpr bare.1,
      (not_congr (stretches.marks_iff .closing rfl rfl (by omega))).mpr bare.2⟩
  · exact (stretches.marks_iff .opening rfl rfl room).mpr marks

variable (apart : Text.Apart first.toList second.toList)
include apart

/-- No marker stands across the seam. -/
theorem not_marks_seam (marker : Marker) (same : marker.second = marker.first)
    (brace : isBrace marker.first = true) {index : Nat}
    (last : index + 1 = (ofString first).size) :
    ¬ (ofString (first ++ second)).Marks marker index := by
  rintro ⟨isFirst, isSecond, _⟩
  have length := size_eq_length (ofString first)
  rw [toList_ofString] at length
  rw [hasAt_iff, toList_ofString, String.toList_append] at isFirst isSecond
  rw [List.getElem?_append_left (by omega)] at isFirst
  rw [List.getElem?_append_right (by omega)] at isSecond
  have isLast : first.toList.getLast? = some marker.first := by
    rw [List.getLast?_eq_getElem?, ← length, ← last]
    exact isFirst
  have start : index + 1 - first.toList.length = 0 := by omega
  rw [start, same] at isSecond
  exact apart.braces _ isLast brace (by rw [List.head?_eq_getElem?]; exact isSecond)

theorem runs_across {start next : Nat}
    (runs : (ofString first).Runs start (ofString first).size (ofString first).size)
    (further : (ofString second).Runs 0 next (ofString second).size) :
    (ofString (first ++ second)).Runs start ((ofString first).size + next)
      (ofString (first ++ second)).size := by
  have size := size_joined first second
  have within := further.inside
  have ahead := runs.ahead
  have before := stretches_first first second
  have behind : (ofString (first ++ second)).Stretches (ofString second)
      ((ofString first).size + ·) := stretches_second apart.bare
  refine ⟨by omega, by omega, fun index after less room => ?_, fun more => ?_⟩
  · rcases Nat.lt_or_ge index (ofString first).size with left | right
    · rcases Nat.lt_or_ge (index + 1) (ofString first).size with inner | seam
      · have bare := runs.bare index after left inner
        exact ⟨(not_congr (before.marks_iff .opening rfl rfl inner)).mpr bare.1,
          (not_congr (before.marks_iff .closing rfl rfl inner)).mpr bare.2⟩
      · exact ⟨not_marks_seam apart .opening rfl rfl (by omega),
          not_marks_seam apart .closing rfl rfl (by omega)⟩
    · obtain ⟨offset, rfl⟩ := Nat.exists_eq_add_of_le right
      have bare := further.bare offset (Nat.zero_le _) (by omega) (by omega)
      exact ⟨(not_congr (behind.marks_iff .opening rfl rfl (by omega))).mpr bare.1,
        (not_congr (behind.marks_iff .closing rfl rfl (by omega))).mpr bare.2⟩
  · obtain ⟨room, marks⟩ := further.cut (by omega)
    exact ⟨by omega, (behind.marks_iff .opening rfl rfl room).mpr marks⟩

theorem text_across {start next : Nat} (ahead : start ≤ (ofString first).size) :
    Text.collapseChars ((ofString (first ++ second)).slice start ((ofString first).size + next)) =
      Text.collapseChars ((ofString first).slice start (ofString first).size) ++
        Text.collapseChars ((ofString second).slice 0 next) := by
  have size := size_joined first second
  have length := size_eq_length (ofString first)
  have whole : (ofString (first ++ second)).slice start ((ofString first).size + next) =
      first.toList.drop start ++ second.toList.take next := by
    rw [toList_ofString] at length
    rw [slice_eq, toList_ofString, String.toList_append, List.drop_append_of_le_length (by omega),
      List.take_append, List.take_of_length_le (by rw [List.length_drop]; omega), List.length_drop]
    congr 2
    omega
  have left : (ofString first).slice start (ofString first).size = first.toList.drop start := by
    rw [slice_eq, toList_ofString, List.take_of_length_le]
    rw [List.length_drop, length, toList_ofString]
  have right : (ofString second).slice 0 next = second.toList.take next := by
    rw [slice_eq, toList_ofString, List.drop_zero, Nat.sub_zero]
  rw [whole, left, right]
  refine Text.collapseChars_append fun c d isLast isHead => apart.blanks c d ?_ ?_
  · rw [List.getLast?_drop] at isLast
    split at isLast
    · cases isLast
    · exact isLast
  · rw [List.head?_take] at isHead
    split at isHead
    · cases isHead
    · exact isHead

theorem pieces_behind {start : Nat} {others : List Piece} (inside : start ≤ (ofString second).size)
    (read : pieces (ofString second) ⟨start, (ofString second).size⟩ = .ok others) :
    pieces (ofString (first ++ second)) ⟨(ofString first).size + start,
        (ofString (first ++ second)).size⟩ =
      .ok (others.map (Piece.moved ((ofString first).size + ·))) := by
  have alike :=
    pieces_alike (stretches_second apart.bare) (Nat.le_refl (ofString second).size) inside
  rw [read] at alike
  obtain ⟨_, ran, rfl, _⟩ := alike.of_ok
  rw [size_joined]
  exact ran

theorem pieces_seam {others : List Piece} {start : Nat}
    (otherRead : pieces (ofString second) ⟨0, (ofString second).size⟩ = .ok others)
    (room : start < (ofString first).size)
    (runs : (ofString first).Runs start (ofString first).size (ofString first).size) :
    pieces (ofString (first ++ second)) ⟨start, (ofString (first ++ second)).size⟩ =
      .ok (join [.text (String.ofList (Text.collapseChars
          ((ofString first).slice start (ofString first).size)))]
        (others.map (Piece.moved ((ofString first).size + ·)))) := by
  have whole := Nat.le_refl (ofString (first ++ second)).size
  have across : ∀ next, (ofString second).Runs 0 next (ofString second).size →
      pieces (ofString (first ++ second)) ⟨start, (ofString (first ++ second)).size⟩ =
        (.text (String.ofList (Text.collapseChars
            ((ofString first).slice start (ofString first).size) ++
          Text.collapseChars ((ofString second).slice 0 next))) :: ·) <$>
          pieces (ofString (first ++ second))
            ⟨(ofString first).size + next, (ofString (first ++ second)).size⟩ := by
    intro next further
    rw [pieces_run whole (by omega) (runs_across apart runs further),
      text_across apart (Nat.le_of_lt room)]
  -- Behind the seam there is nothing, a token, or the rest of the run.
  by_cases filled : 0 < (ofString second).size
  · rcases pieces_cases (Nat.le_refl _) filled otherRead with
      ⟨token, rest, rfl, fits, marks, _⟩ | ⟨next, rest, rfl, ahead, further, later⟩
    · rw [across 0 ((runs_opening fits marks).mpr rfl),
        pieces_behind apart (Nat.zero_le _) otherRead,
        slice_empty, Text.collapseChars, List.append_nil, map_ok, List.map_cons, Piece.moved,
        join_text _ _ (by simp)]
    · rw [across next further, pieces_behind apart further.inside later, map_ok,
        String.ofList_append]
      rfl
  · have none : (ofString second).size = 0 := by omega
    have read := otherRead
    rw [none, pieces_done] at read
    obtain rfl := Except.ok.inj read
    have empty : (ofString second).Runs 0 0 (ofString second).size :=
      ⟨Nat.le_refl 0, Nat.zero_le _, fun _ _ => by omega, fun _ => by omega⟩
    rw [across 0 empty, pieces_behind apart (Nat.zero_le _) otherRead,
      slice_empty, Text.collapseChars, List.append_nil, map_ok]
    rfl

/-- The level of two sources is the level of the first with that of the second behind it. -/
theorem pieces_join {others : List Piece}
    (otherRead : pieces (ofString second) ⟨0, (ofString second).size⟩ = .ok others) {start : Nat}
    {found : List Piece} (inside : start ≤ (ofString first).size)
    (read : pieces (ofString first) ⟨start, (ofString first).size⟩ = .ok found) :
    pieces (ofString (first ++ second)) ⟨start, (ofString (first ++ second)).size⟩ =
      .ok (join found (others.map (Piece.moved ((ofString first).size + ·)))) := by
  have size := size_joined first second
  have whole := Nat.le_refl (ofString (first ++ second)).size
  have moved : ∀ {span}, Span.moved id span = span := fun {_} => rfl
  induction left : (ofString first).size - start using Nat.strongRecOn generalizing start found with
  | ind left ih =>
      subst left
      rcases Nat.lt_or_eq_of_le inside with room | rfl
      · have before := stretches_first first second
        rcases pieces_cases (Nat.le_refl _) room read with
          ⟨token, rest, rfl, fits, marks, isToken, later⟩ | ⟨next, rest, rfl, ahead, runs, later⟩
        · have alike := Token.read_alike before fits (Nat.le_refl _) marks
          rw [isToken] at alike
          obtain ⟨_, ran, rfl, _⟩ := alike.of_ok
          have known := (Token.read_settles fits (Nat.le_refl _)).of_ok isToken
          have forward := known.ahead
          have readThere := Token.read_longer ran (by simp only [id]; omega) whole
          rw [Token.moved_id] at readThere
          have marksThere := (before.marks_iff .opening rfl rfl fits).mpr marks
          have onward := ih _ (by omega) known.inside later rfl
          simp only [id] at readThere marksThere
          rw [pieces_token whole (by omega) marksThere readThere, onward, map_ok, join_token]
        · have within := runs.inside
          rcases Nat.lt_or_eq_of_le within with short | rfl
          · have onward := ih _ (by omega) within later rfl
            have sameText := (before.slice_collapsed (Nat.le_of_lt ahead) within).1
            obtain ⟨piece, rest, rfl⟩ : ∃ piece more, rest = piece :: more := by
              rcases pieces_cases (Nat.le_refl _) short later with ⟨_, _, rfl, _⟩ | ⟨_, _, rfl, _⟩
              · exact ⟨_, _, rfl⟩
              · exact ⟨_, _, rfl⟩
            simp only [id] at sameText
            rw [pieces_run whole ahead (runs_before runs short), onward, map_ok, sameText,
              join_cons]
          · rw [pieces_done] at later
            obtain rfl := Except.ok.inj later
            exact pieces_seam apart otherRead ahead runs
      · rw [pieces_done] at read
        obtain rfl := Except.ok.inj read
        exact pieces_behind apart (Nat.zero_le _) otherRead

end Join

end Level

namespace Outline

open Source

variable {piece : Piece} {rest found others : List Piece} {bodies otherBodies : List Forest}

theorem assemble_cons (count : bodies.length = (bodySpans (piece :: rest)).length) :
    ∃ body later, later.length = (bodySpans rest).length ∧ ∀ others extra,
      assemble (hang (piece :: others) (bodies ++ extra)) =
        .cons piece.node body (assemble (hang others (later ++ extra))) := by
  cases isBody : piece.body with
  | none =>
      rw [bodySpans_none rest isBody] at count
      exact ⟨.nil, bodies, count, fun others extra => assemble_none others _ isBody⟩
  | some span =>
      rw [bodySpans_some rest isBody, List.length_cons] at count
      obtain ⟨body, later, rfl⟩ := List.exists_cons_of_length_eq_add_one count
      refine ⟨body, later, by simpa using count, fun others extra => ?_⟩
      rw [List.cons_append]
      exact assemble_some others _ body isBody

theorem assemble_filled (filled : found ≠ [])
    (count : bodies.length = (bodySpans found).length) :
    ∃ piece rest body forest, found = piece :: rest ∧
      assemble (hang found bodies) = .cons piece.node body forest := by
  obtain ⟨piece, rest, rfl⟩ := List.exists_cons_of_ne_nil filled
  obtain ⟨body, later, _, same⟩ := assemble_cons count
  exact ⟨piece, rest, body, _, rfl, by simpa using same rest []⟩

theorem assemble_join (filled : found ≠ []) (othersFilled : others ≠ [])
    (telling : ∀ piece ∈ found, piece.Telling) (othersTelling : ∀ piece ∈ others, piece.Telling)
    (count : bodies.length = (bodySpans found).length)
    (otherCount : otherBodies.length = (bodySpans others).length) :
    assemble (hang (Level.join found others) (bodies ++ otherBodies)) =
      (assemble (hang found bodies)).join (assemble (hang others otherBodies)) := by
  induction found generalizing bodies with
  | nil => exact absurd rfl filled
  | cons piece rest ih =>
      obtain ⟨body, later, laterCount, same⟩ := assemble_cons count
      have alone : assemble (hang (piece :: rest) bodies) =
          .cons piece.node body (assemble (hang rest later)) := by simpa using same rest []
      have here := telling piece List.mem_cons_self
      cases rest with
      | nil =>
          obtain rfl := List.length_eq_zero_iff.mp laterCount
          obtain ⟨other, more, otherBody, forest, rfl, otherSame⟩ :=
            assemble_filled othersFilled otherCount
          have there := othersTelling other List.mem_cons_self
          -- Only between two texts the seam is closed.
          cases piece with
          | token token =>
              rw [Level.join_token, Level.join, same, alone, List.nil_append, otherSame]
              refine (Forest.meet_apart _ _ _ (fun texts => here texts.1)
                (fun vacant => here vacant.1) fun vacant => ?_).symm
              cases other with
              | token token => exact there vacant.1
              | text chars => exact there (Option.some.inj vacant.2)
          | text chars =>
              obtain rfl : bodies = [] := List.length_eq_zero_iff.mp count
              cases other with
              | text others =>
                  rw [assemble_none more otherBodies rfl, List.nil_append,
                    show Level.join [.text chars] (.text others :: more) =
                      .text (chars ++ others) :: more from rfl, assemble_none more otherBodies rfl]
                  simp [hang, assemble, Forest.join, Forest.meet, Piece.node, Node.joined,
                    Piece.body]
              | token token =>
                  rw [Level.join_text _ _ (by simp), List.nil_append,
                    assemble_none _ otherBodies rfl, otherSame, assemble_none [] [] rfl]
                  exact (Forest.meet_apart _ _ _ (fun texts => there texts.2)
                    (fun vacant => here (Option.some.inj vacant.2))
                    fun vacant => there vacant.1).symm
      | cons next rest =>
          have onward := ih (by simp) (fun other member =>
            telling other (List.mem_cons_of_mem piece member)) laterCount
          have step : Level.join (piece :: next :: rest) others =
              piece :: Level.join (next :: rest) others := by
            cases piece with
            | text chars => exact Level.join_cons chars next rest others
            | token token => exact Level.join_token token _ others
          obtain ⟨_, _, _, _, _, sameRest⟩ := assemble_filled (by simp) laterCount
          rw [step, same, onward, alone, sameRest]
          rfl

theorem bodySpans_join (found others : List Piece) :
    bodySpans (Level.join found others) = bodySpans found ++ bodySpans others := by
  fun_induction Level.join found others with
  | case1 => rfl
  | case2 => rfl
  | case3 piece rest others _ ih =>
      cases isBody : piece.body with
      | none => rw [bodySpans_none _ isBody, bodySpans_none _ isBody, ih]
      | some span => rw [bodySpans_some _ isBody, bodySpans_some _ isBody, ih, List.cons_append]

theorem mapM_length {readBody : Span → Except Stop Forest} {spans : List Span}
    (read : spans.mapM readBody = .ok bodies) : bodies.length = spans.length := by
  induction spans generalizing bodies with
  | nil =>
      cases read
      rfl
  | cons span rest ih =>
      rw [List.mapM_cons] at read
      obtain ⟨body, _, read⟩ := bind_eq_ok.mp read
      obtain ⟨later, ran, done⟩ := bind_eq_ok.mp read
      cases done
      rw [List.length_cons, List.length_cons, ih ran]

theorem read_filled {source : Source} {forest : Forest} (room : 0 < source.size)
    (read : Outline.read source ⟨0, source.size⟩ = .ok forest) :
    ∃ pieces bodies, Level.pieces source ⟨0, source.size⟩ = .ok pieces ∧ pieces ≠ [] ∧
      (∀ piece ∈ pieces, piece.Telling) ∧
      (∀ body ∈ bodySpans pieces, body.start ≤ body.stop ∧ body.stop ≤ source.size) ∧
      (bodySpans pieces).mapM (Outline.read source) = .ok bodies ∧
      forest = assemble (hang pieces bodies) := by
  have inside := Nat.le_refl source.size
  rw [read_eq source inside] at read
  obtain ⟨pieces, level, read⟩ := bind_eq_ok.mp read
  obtain ⟨bodies, bodiesRead, done⟩ := bind_eq_ok.mp read
  obtain ⟨found, ran, same⟩ := map_eq_ok level
  have filled : ∃ piece rest, found = piece :: rest := by
    rcases Level.pieces_cases inside room ran with ⟨_, _, rfl, _⟩ | ⟨_, _, rfl, _⟩
    · exact ⟨_, _, rfl⟩
    · exact ⟨_, _, rfl⟩
  obtain ⟨piece, rest, rfl⟩ := filled
  obtain rfl : piece :: rest = pieces := same
  obtain ⟨fits, loads, _⟩ := (Level.read_settles inside).of_ok level
  have tiles := Level.read_tiles inside room level
  refine ⟨piece :: rest, bodies, ran, by simp, tiles.telling, fun body member => ?_, bodiesRead,
    (Except.ok.inj done).symm⟩
  exact ⟨Nat.le_of_lt (tiles.body_room body member), (body_shorter fits loads body member).2⟩

theorem eq_empty {text : String} (none : ¬ 0 < (ofString text).size) : text = "" := by
  rw [size_eq_length, toList_ofString, List.length_pos_iff, not_not,
    String.toList_eq_nil_iff] at none
  exact none

theorem read_normal {text : String} {forest : Forest}
    (read : Outline.read (ofString text) ⟨0, (ofString text).size⟩ = .ok forest) :
    (text = "" → forest = .cons ⟨.text, some "", {}⟩ .nil .nil) ∧ (text ≠ "" → forest.Normal) := by
  constructor
  · rintro rfl
    rw [read_empty _ (Nat.le_refl 0)] at read
    exact (Except.ok.inj read).symm
  · intro filled
    have room : 0 < (ofString text).size := Nat.lt_of_not_ge fun none =>
      filled (eq_empty (Nat.not_lt_of_ge none))
    exact (readFor_accounts _ _ (Nat.le_refl _) room read).normal

section Join

variable {first second : String} (apart : Text.Apart first.toList second.toList)
include apart

/-- The outline of two sources is the outline of the first with that of the second
behind it. -/
theorem read_join {forest other : Forest}
    (read : Outline.read (ofString first) ⟨0, (ofString first).size⟩ = .ok forest)
    (otherRead : Outline.read (ofString second) ⟨0, (ofString second).size⟩ = .ok other) :
    Outline.read (ofString (first ++ second)) ⟨0, (ofString (first ++ second)).size⟩ =
      .ok (forest.join other) := by
  have size := size_joined first second
  -- The outline of an empty source is a vacant text, which disappears in the joined one.
  by_cases firstFilled : 0 < (ofString first).size
  · by_cases secondFilled : 0 < (ofString second).size
    · obtain ⟨found, bodies, ran, filled, telling, within, bodiesRead, rfl⟩ :=
        read_filled firstFilled read
      obtain ⟨others, otherBodies, otherRan, othersFilled, othersTelling, othersWithin,
        otherBodiesRead, rfl⟩ := read_filled secondFilled otherRead
      have before := stretches_first first second
      have behind : (ofString (first ++ second)).Stretches (ofString second)
          ((ofString first).size + ·) := stretches_second apart.bare
      have level := Level.pieces_join apart otherRan (Nat.zero_le _) ran
      obtain ⟨piece, rest, isJoin⟩ := Level.join_filled filled
        (others.map (Piece.moved ((ofString first).size + ·)))
      rw [isJoin] at level
      have firstBodies : (bodySpans found).mapM (Outline.read (ofString (first ++ second))) =
          .ok bodies := by
        have alike := mapM_alike (bodySpans found) fun body member =>
          read_alike before body (within body member).1 (within body member).2
        rw [bodiesRead] at alike
        obtain ⟨_, ran, rfl⟩ := alike.of_ok
        have same : Span.moved id = id := rfl
        rwa [same, List.map_id] at ran
      have secondBodies : (bodySpans (others.map (Piece.moved ((ofString first).size + ·)))).mapM
          (Outline.read (ofString (first ++ second))) = .ok otherBodies := by
        have alike := mapM_alike (bodySpans others) fun body member =>
          read_alike behind body (othersWithin body member).1 (othersWithin body member).2
        rw [otherBodiesRead] at alike
        obtain ⟨_, ran, rfl⟩ := alike.of_ok
        rwa [bodySpans_moved]
      rw [read_eq _ (Nat.le_refl _), Level.read_filled level, ← isJoin, ok_bind, bodySpans_join,
        List.mapM_append, firstBodies, ok_bind, secondBodies, ok_bind, pure_eq_ok, ok_bind,
        pure_eq_ok, assemble_join filled (by simpa using othersFilled) telling ?_
          (mapM_length bodiesRead) ?_, hang_moved]
      · intro piece member
        obtain ⟨other, isOther, rfl⟩ := List.mem_map.mp member
        exact (othersTelling other isOther).moved _
      · rw [bodySpans_moved, List.length_map]
        exact mapM_length otherBodiesRead
    · obtain rfl := eq_empty secondFilled
      have known := (read_normal read).2 (by rintro rfl; exact absurd firstFilled (by decide))
      have filled := ((Outline.read_settles _ (Nat.le_refl _)).of_ok read).2
      rw [(read_normal otherRead).1 rfl, Forest.join_vacant_right known filled, String.append_empty]
      exact read
  · obtain rfl := eq_empty firstFilled
    rw [(read_normal read).1 rfl, String.empty_append]
    by_cases none : second = ""
    · subst none
      obtain rfl := (read_normal otherRead).1 rfl
      exact otherRead
    · have filled := ((Outline.read_settles _ (Nat.le_refl _)).of_ok otherRead).2
      rw [Forest.join_vacant_left ((read_normal otherRead).2 none) filled]
      exact otherRead

end Join

end Outline

end Stencil
