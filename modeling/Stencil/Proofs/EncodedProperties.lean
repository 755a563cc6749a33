import Stencil.Proofs.CommandMeaning
import Stencil.Proofs.EscapedBeside
import Stencil.Proofs.MapGrammar
import Stencil.Proofs.ShedValues

/-!
Properties written into a command and read back. A value is written with a backslash
before each of its commas, so no comma in it parts pairs, and taking these backslashes
away gives the value back whatever backslashes it had before. The first equal sign of
a pair stands behind its key, so a value may hold equal signs anywhere. A token with
written pairs in its parentheses is read as a command with these properties.
-/

namespace Stencil

namespace Text

def hideCommas : List Char → List Char
  | [] => []
  | c :: rest => if c = ',' then '\\' :: ',' :: hideCommas rest else c :: hideCommas rest

@[simp] theorem hideCommas_comma (rest : List Char) :
    hideCommas (',' :: rest) = '\\' :: ',' :: hideCommas rest := rfl

theorem hideCommas_other {c : Char} (other : c ≠ ',') (rest : List Char) :
    hideCommas (c :: rest) = c :: hideCommas rest := by
  rw [hideCommas, if_neg other]

theorem hideCommas_append (front back : List Char) :
    hideCommas (front ++ back) = hideCommas front ++ hideCommas back := by
  induction front with
  | nil => rfl
  | cons c front ih =>
      by_cases comma : c = ','
      · subst comma
        simp [ih]
      · simp [hideCommas_other comma, ih]

theorem hideCommas_plain {text : List Char} (plain : ∀ c ∈ text, c ≠ ',') :
    hideCommas text = text := by
  induction text with
  | nil => rfl
  | cons c text ih =>
      rw [hideCommas_other (plain c List.mem_cons_self),
        ih fun d member => plain d (List.mem_cons_of_mem c member)]

theorem mem_hideCommas {text : List Char} {c : Char} (member : c ∈ hideCommas text) :
    c = '\\' ∨ c ∈ text := by
  induction text with
  | nil => cases member
  | cons d text ih =>
      by_cases comma : d = ','
      · subst comma
        simp only [hideCommas_comma, List.mem_cons] at member ⊢
        tauto
      · simp only [hideCommas_other comma, List.mem_cons] at member ⊢
        tauto

section Ends

variable {text : List Char}

theorem hideCommas_last : (hideCommas text).getLast? = text.getLast? := by
  rcases List.eq_nil_or_concat text with rfl | ⟨front, c, rfl⟩
  · rfl
  · rw [List.concat_eq_append, hideCommas_append, List.getLast?_concat]
    by_cases comma : c = ','
    · subst comma
      simp [hideCommas]
    · simp [hideCommas, comma]

theorem hideCommas_head : (hideCommas text).head?.any isBlank = text.head?.any isBlank := by
  cases text with
  | nil => rfl
  | cons c text =>
      by_cases comma : c = ','
      · subst comma
        rfl
      · rw [hideCommas_other comma]
        rfl

theorem hideCommas_begins : (hideCommas text).head? ≠ some ',' := by
  cases text with
  | nil => exact nofun
  | cons c text =>
      by_cases comma : c = ','
      · subst comma
        simp
      · rw [hideCommas_other comma]
        exact fun same => comma (Option.some.inj same)

end Ends

theorem bareCommas_hideCommas (text : List Char) : bareCommas (hideCommas text) = text := by
  induction text with
  | nil => rfl
  | cons c text ih =>
      by_cases comma : c = ','
      · subst comma
        simp [bareCommas, ih]
      · rw [hideCommas_other comma, bareCommas, ih]
        -- A backslash of the text is never followed by a comma when that one is hidden.
        intro rest _ same
        apply hideCommas_begins
        rw [same]
        rfl

theorem collapse_hideCommas (text : List Char) :
    collapseChars (hideCommas text) = hideCommas (collapseChars text) := by
  induction text with
  | nil => rfl
  | cons c text ih =>
      by_cases comma : c = ','
      · subst comma
        rw [hideCommas_comma, collapseChars_bare rfl, collapseChars_bare rfl, ih,
          collapseChars_bare rfl, hideCommas_comma]
      · rw [hideCommas_other comma]
        cases blank : isBlank c with
        | true =>
            rw [collapseChars_blank blank, collapseChars_blank blank, hideCommas_head, ih]
            split
            · rfl
            · rw [hideCommas_other (by decide)]
        | false =>
            rw [collapseChars_bare blank, collapseChars_bare blank, ih, hideCommas_other comma]

/-- Hidden commas part nothing, so the text goes with the first segment behind it. -/
theorem segments_hideCommas {text : List Char} (plain : ∀ c ∈ text, c ≠ '(' ∧ c ≠ ')')
    (ends : text.getLast? ≠ some '\\') (hidden : Bool) (start : text = [] → hidden = false)
    (rest : List Char) : segments hidden 0 (hideCommas text ++ rest) =
      (segments false 0 rest).modifyHead (hideCommas text ++ ·) := by
  induction text generalizing hidden with
  | nil =>
      rw [start rfl]
      exact (congrFun List.modifyHead_id _).symm
  | cons c text ih =>
      have plainRest := fun d member => plain d (List.mem_cons_of_mem c member)
      have endsRest : text.getLast? ≠ some '\\' := by
        intro last
        rw [List.getLast?_cons, last] at ends
        exact ends rfl
      have level : ∀ hidden, nesting hidden 0 c = 0 := by
        intro hidden
        obtain ⟨notOpening, notClosing⟩ := plain c List.mem_cons_self
        simp [nesting, notOpening, notClosing]
      by_cases comma : c = ','
      · subst comma
        have slash : ∀ hidden, nesting hidden 0 '\\' = 0 := by simp [nesting]
        have later := ih plainRest endsRest (',' == '\\') fun _ => rfl
        rw [hideCommas_comma, List.cons_append, List.cons_append, segments, if_neg (by simp),
          segments, if_neg (by simp), slash, level, later, List.modifyHead_modifyHead,
          List.modifyHead_modifyHead]
        rfl
      · have bare : text = [] → (c == '\\') = false := by
          rintro rfl
          simpa using ends
        rw [hideCommas_other comma, List.cons_append, segments, if_neg (by simp [comma]), level,
          ih plainRest endsRest _ bare, List.modifyHead_modifyHead]
        rfl

theorem sides_plain {key : List Char} (plain : ∀ c ∈ key, c ≠ '=' ∧ c ≠ '\\')
    (rest : List Char) : sides false (key ++ '=' :: rest) = some (key, rest) := by
  induction key with
  | nil => rfl
  | cons c key ih =>
      obtain ⟨notSign, notSlash⟩ := plain c List.mem_cons_self
      have bare : (c == '\\') = false := by simpa using notSlash
      rw [List.cons_append, sides, if_neg fun hit => notSign hit.1, bare,
        ih fun d member => plain d (List.mem_cons_of_mem c member)]
      rfl

def Framed (text : List Char) : Prop :=
  (∃ c, text.head? = some c ∧ isBlank c = false) ∧ ∃ c, text.getLast? = some c ∧ isBlank c = false

section Framed

variable {text : List Char} (framed : Framed text)
include framed

theorem Framed.trimmed : trimBlanks text = text := by
  obtain ⟨⟨first, isFirst, firstBare⟩, last, isLast, lastBare⟩ := framed
  have none : ∀ c ∈ ([] : List Char), isBlank c = true := nofun
  simpa using trimBlanks_eq none none isFirst firstBare isLast lastBare

theorem Framed.visible : text.all isBlank = false := by
  obtain ⟨⟨first, isFirst, bare⟩, _⟩ := framed
  apply List.all_eq_false.mpr
  exact ⟨first, List.mem_of_mem_head? isFirst, Bool.eq_false_iff.mp bare⟩

theorem Framed.hideCommas : Framed (hideCommas text) := by
  obtain ⟨⟨first, isFirst, bare⟩, last⟩ := framed
  rw [← hideCommas_last] at last
  refine ⟨?_, last⟩
  obtain ⟨rest, rfl⟩ := List.head?_eq_some_iff.mp isFirst
  by_cases comma : first = ','
  · subst comma
    exact ⟨'\\', rfl, rfl⟩
  · exact ⟨first, by rw [hideCommas_other comma]; rfl, bare⟩

end Framed

/-- The text is not empty, its blanks are single spaces, and none is at its ends. -/
structure Tidy (text : String) : Prop where
  filled : text ≠ ""
  cleaned : collapse text = text
  begins : text.toList.head? ≠ some ' '
  ends : text.toList.getLast? ≠ some ' '

instance (text : String) : Decidable (Tidy text) :=
  decidable_of_iff (text ≠ "" ∧ collapse text = text ∧ text.toList.head? ≠ some ' ' ∧
      text.toList.getLast? ≠ some ' ')
    ⟨fun ⟨filled, cleaned, begins, ends⟩ => ⟨filled, cleaned, begins, ends⟩,
      fun tidy => ⟨tidy.filled, tidy.cleaned, tidy.begins, tidy.ends⟩⟩

section Tidy

variable {text : String}

theorem collapseChars_spaces (text : List Char) :
    ∀ c ∈ collapseChars text, isBlank c = true → c = ' ' := by
  induction text with
  | nil => exact nofun
  | cons d text ih =>
      cases blank : isBlank d with
      | true =>
          rw [collapseChars_blank blank]
          split
          · exact ih
          · simpa using ih
      | false =>
          rw [collapseChars_bare blank]
          intro c member isBlank
          rcases List.mem_cons.mp member with rfl | later
          · rw [blank] at isBlank
            cases isBlank
          · exact ih c later isBlank

variable (tidy : Tidy text)
include tidy

theorem Tidy.chars : collapseChars text.toList = text.toList := by
  have same := congrArg String.toList tidy.cleaned
  rwa [collapse, String.toList_ofList] at same

theorem Tidy.bare {c : Char} (member : c ∈ text.toList) (notSpace : c ≠ ' ') :
    isBlank c = false := by
  apply Bool.eq_false_iff.mpr
  intro blank
  rw [← tidy.chars] at member
  exact notSpace (collapseChars_spaces _ c member blank)

theorem Tidy.filled_chars : text.toList ≠ [] := by
  intro none
  exact tidy.filled (String.toList_injective none)

theorem Tidy.framed : Framed text.toList := by
  obtain ⟨first, rest, isText⟩ := List.exists_cons_of_ne_nil tidy.filled_chars
  have isFirst : text.toList.head? = some first := by rw [isText]; rfl
  have isLast := List.getLast?_eq_some_getLast tidy.filled_chars
  constructor
  · refine ⟨first, isFirst, tidy.bare (List.mem_of_mem_head? isFirst) ?_⟩
    rintro rfl
    exact tidy.begins isFirst
  · refine ⟨_, isLast, tidy.bare (List.getLast_mem _) ?_⟩
    intro space
    rw [space] at isLast
    exact tidy.ends isLast

end Tidy

end Text

namespace PropertyMap

open Text

def Without (text : String) (chars : List Char) : Prop := ∀ c ∈ text.toList, c ∉ chars

instance (text : String) (chars : List Char) : Decidable (Without text chars) :=
  List.decidableBAll (fun c => c ∉ chars) text.toList

/-- A key and a value that can be written as a pair. -/
structure Encodable (key value : String) : Prop where
  key_tidy : Tidy key
  value_tidy : Tidy value
  key_plain : Without key ['=', ',', '(', ')', '\\', '\x7b', '\x7d']
  value_plain : Without value ['(', ')', '\x7b', '\x7d']
  value_ends : value.toList.getLast? ≠ some '\\'

instance (key value : String) : Decidable (Encodable key value) :=
  decidable_of_iff (Tidy key ∧ Tidy value ∧
      Without key ['=', ',', '(', ')', '\\', '\x7b', '\x7d'] ∧
      Without value ['(', ')', '\x7b', '\x7d'] ∧ value.toList.getLast? ≠ some '\\')
    ⟨fun ⟨key, value, keyPlain, valuePlain, ends⟩ => ⟨key, value, keyPlain, valuePlain, ends⟩,
      fun encodable => ⟨encodable.key_tidy, encodable.value_tidy, encodable.key_plain,
        encodable.value_plain, encodable.value_ends⟩⟩

def encoded (pair : String × String) : List Char :=
  pair.1.toList ++ '=' :: hideCommas pair.2.toList

def joined (pairs : List (String × String)) : List Char := [','].intercalate (pairs.map encoded)

section Pair

variable {key value : String} (encodable : Encodable key value)
include encodable

theorem Encodable.encoded_eq :
    encoded (key, value) = hideCommas (key.toList ++ '=' :: value.toList) := by
  have noComma : ∀ c ∈ key.toList, c ≠ ',' := by
    rintro c member rfl
    exact encodable.key_plain _ member (by decide)
  rw [encoded, hideCommas_append, hideCommas_plain noComma, hideCommas_other (by decide)]

theorem Encodable.ends : (key.toList ++ '=' :: value.toList).getLast? ≠ some '\\' := by
  rw [List.getLast?_append, List.getLast?_cons,
    List.getLast?_eq_some_getLast encodable.value_tidy.filled_chars]
  have last := encodable.value_ends
  rwa [List.getLast?_eq_some_getLast encodable.value_tidy.filled_chars] at last

theorem Encodable.plain :
    ∀ c ∈ key.toList ++ '=' :: value.toList, c ∉ ['(', ')', '\x7b', '\x7d'] := by
  intro c member
  rcases List.mem_append.mp member with inKey | later
  · have plain := encodable.key_plain c inKey
    simp only [List.mem_cons, not_or] at plain ⊢
    tauto
  · rcases List.mem_cons.mp later with rfl | inValue
    · decide
    · exact encodable.value_plain c inValue

/-- A pair that was written is read back. -/
theorem Encodable.pairOf_encoded : pairOf (encoded (key, value)) = .ok (key, value) := by
  have plain : ∀ c ∈ key.toList, c ≠ '=' ∧ c ≠ '\\' := by
    intro c member
    have plain := encodable.key_plain c member
    simp only [List.mem_cons, not_or] at plain
    exact ⟨plain.1, plain.2.2.2.2.1⟩
  have key := encodable.key_tidy.framed
  have value := encodable.value_tidy.framed.hideCommas
  simp only [pairOf, encoded, sides_plain plain, key.visible, value.visible, key.trimmed,
    value.trimmed, Bool.false_eq_true, if_false, collapse_hideCommas, encodable.key_tidy.chars,
    encodable.value_tidy.chars, bareCommas_hideCommas, String.ofList_toList]

end Pair

section Pairs

variable {pairs : List (String × String)}

theorem joined_cons (pair other : String × String) (pairs : List (String × String)) :
    joined (pair :: other :: pairs) = encoded pair ++ ',' :: joined (other :: pairs) := by
  simp [joined, List.intercalate_cons_cons]

variable (encodable : ∀ pair ∈ pairs, Encodable pair.1 pair.2)
include encodable

/-- The segments of written pairs are the pairs one by one. -/
theorem segments_joined (filled : pairs ≠ []) :
    segments false 0 (joined pairs) = pairs.map encoded := by
  induction pairs with
  | nil => exact absurd rfl filled
  | cons pair pairs ih =>
      have first := encodable pair List.mem_cons_self
      have noParenthesis : ∀ c ∈ pair.1.toList ++ '=' :: pair.2.toList, c ≠ '(' ∧ c ≠ ')' := by
        intro c member
        have plain := first.plain c member
        simp only [List.mem_cons, not_or] at plain
        exact ⟨plain.1, plain.2.1⟩
      have alone := segments_hideCommas noParenthesis first.ends false fun _ => rfl
      rw [← first.encoded_eq] at alone
      cases pairs with
      | nil =>
          have single := alone []
          rw [List.append_nil] at single
          simpa [joined, segments] using single
      | cons other pairs =>
          have others := ih (fun pair member => encodable pair (List.mem_cons_of_mem _ member))
            (List.cons_ne_nil _ _)
          rw [joined_cons, alone, segments, if_pos ⟨rfl, rfl, rfl⟩, others]
          simp

theorem mapM_encoded : (pairs.map encoded).mapM pairOf = .ok pairs := by
  induction pairs with
  | nil => rfl
  | cons pair pairs ih =>
      have others := ih fun pair member => encodable pair (List.mem_cons_of_mem _ member)
      rw [List.map_cons, List.mapM_cons, (encodable pair List.mem_cons_self).pairOf_encoded, others]
      rfl

theorem tableOf_joined : tableOf (joined pairs) = .ok (Table.ofList pairs) := by
  cases pairs with
  | nil => rfl
  | cons pair pairs =>
      have visible : (joined (pair :: pairs)).all isBlank = false := by
        apply List.all_eq_false.mpr
        refine ⟨'=', ?_, by decide⟩
        cases pairs with
        | nil => simp [joined, encoded]
        | cons other pairs => simp [joined_cons, encoded]
      rw [tableOf, visible, if_neg Bool.false_ne_true,
        segments_joined encodable (List.cons_ne_nil _ _), mapM_encoded encodable]
      rfl

theorem joined_plain : ∀ c ∈ joined pairs, c ∉ ['(', ')', '\x7b', '\x7d'] := by
  induction pairs with
  | nil => exact nofun
  | cons pair pairs ih =>
      have first := encodable pair List.mem_cons_self
      have here : ∀ c ∈ encoded pair, c ∉ ['(', ')', '\x7b', '\x7d'] := by
        intro c member
        rw [first.encoded_eq] at member
        rcases mem_hideCommas member with rfl | inText
        · decide
        · exact first.plain c inText
      cases pairs with
      | nil => simpa [joined] using here
      | cons other pairs =>
          have others := ih fun pair member => encodable pair (List.mem_cons_of_mem _ member)
          intro c member
          rw [joined_cons] at member
          rcases List.mem_append.mp member with inFirst | later
          · exact here c inFirst
          · rcases List.mem_cons.mp later with rfl | inOthers
            · decide
            · exact others c inOthers

theorem joined_ends : (joined pairs).getLast? ≠ some '\\' := by
  induction pairs with
  | nil => exact nofun
  | cons pair pairs ih =>
      cases pairs with
      | nil =>
          have first := encodable pair List.mem_cons_self
          have single : joined [pair] = encoded pair := by simp [joined]
          rw [single, first.encoded_eq, hideCommas_last]
          exact first.ends
      | cons other pairs =>
          have others := ih fun pair member => encodable pair (List.mem_cons_of_mem _ member)
          rw [joined_cons, List.getLast?_append, List.getLast?_cons]
          cases last : (joined (other :: pairs)).getLast? with
          | none => simp
          | some c =>
              rw [last] at others
              simpa using others

end Pairs

end PropertyMap

namespace Source

variable {source : Source}

theorem exists_mem_at {front middle back : List Char}
    (holds : source.toList = front ++ middle ++ back) {place : Nat} (after : front.length ≤ place)
    (before : place < front.length + middle.length) : ∃ c ∈ middle, source.HasAt place c := by
  obtain ⟨index, rfl⟩ := Nat.exists_eq_add_of_le after
  have inside : index < middle.length := by omega
  have found := List.getElem?_eq_getElem inside
  exact ⟨_, List.getElem_mem inside, (hasAt_middle holds inside).mpr found⟩

theorem Matches.of_unexposed {opening closing : Char} {index place : Nat}
    (closes : source.Exposed place closing) (ahead : index ≤ place)
    (plain : ∀ other, index ≤ other → other < place →
      ¬ source.Exposed other opening ∧ ¬ source.Exposed other closing) :
    source.Matches opening closing 0 index place := by
  obtain ⟨distance, rfl⟩ := Nat.exists_eq_add_of_le ahead
  induction distance generalizing index with
  | zero => exact .here _ closes
  | succ distance ih =>
      have here := plain index (Nat.le_refl index) (by omega)
      have same : index + (distance + 1) = index + 1 + distance := by omega
      rw [same] at closes plain ⊢
      apply Matches.plain 0 index _ here.1 here.2
      apply ih closes (by omega)
      exact fun other after before => plain other (by omega) before

end Source

namespace PropertyMap

open Source

variable {source : Source} {first last : Nat}

theorem exposed_end (ordered : first < last) (opens : source.HasAt first '(')
    (closes : source.HasAt last ')') (ends : (source.slice (first + 1) last).getLast? ≠ some '\\') :
    source.Exposed last ')' :=
  ⟨closes, mt (hidden_behind_span ordered (Nat.le_of_lt closes.inside) opens rfl).mp ends⟩

theorem read_table (ordered : first < last) (opens : source.HasAt first '(')
    (closes : source.Exposed last ')') {properties : Table String String}
    (table : tableOf (source.slice (first + 1) last) = .ok properties) :
    PropertyMap.read source first (last + 1) = .ok properties := by
  have tells := between_tells ordered opens closes.1
  rw [table] at tells
  rw [read_between ordered opens closes.1 closes.2]
  generalize (if source.skipBlanks (first + 1) = last then pure {}
    else readPairs source last (last - first) first {}) = attempt at tells ⊢
  cases tells
  rfl

end PropertyMap

namespace Token

open Source

variable {source : Source} {start stop closing sign last : Nat}

theorem read_map (inside : stop ≤ source.size) (closes : source.Closes 0 (start + 2) closing)
    (room : closing + 2 ≤ stop) (filled : start + 2 < sign) (opens : source.HasAt sign '(')
    (named : ∀ place, start + 2 ≤ place → place < sign →
      ∃ c, source.HasAt place c ∧ isNameChar c = true)
    (balanced : source.Matches '(' ')' 0 (sign + 1) last) (before : last < closing)
    {properties : Table String String}
    (read : PropertyMap.read source sign (last + 1) = .ok properties) {body : Option Span}
    (bodied : bodySpan source (source.skipBlanks (last + 1)) closing = .ok body) :
    Token.read source start stop = .ok {
      node := ⟨.command, some (String.ofList (source.slice (start + 2) sign)), properties⟩
      body
      stop := closing + 2 } := by
  have found := (closing_eq_some inside).mpr ⟨closes, room⟩
  have stays := skipBlanks_eq (.empty sign) opens rfl
  have matched : source.findMatching '(' ')' (sign + 1) closing = .ok (some last) :=
    (findMatching_eq_some (by decide) (by omega)).mpr ⟨balanced, before⟩
  have parted : parts source sign closing =
      .ok ⟨.command, some ⟨sign, last + 1⟩, source.skipBlanks (last + 1)⟩ := by
    simp only [parts, stays, read_eq opens, ofScan_ok, ok_bind, matched, pure_eq_ok]
    rfl
  simp only [Token.read, found, ofScan_ok, ok_bind, nameSpan_eq filled opens rfl named, parted,
    readProperties, read, bodied, pure_eq_ok]

structure Laid (source : Source) (name inner : List Char) (sign last : Nat) : Prop where
  size : source.size = last + 3
  filled : name ≠ [] → 2 < sign
  ordered : sign < last
  slice_name : source.slice 2 sign = name
  slice_inner : source.slice (sign + 1) last = inner
  opens : source.HasAt sign '('
  behind : ∀ index c, [')', '\x7d', '\x7d'][index]? = some c → source.HasAt (last + index) c
  name_at : ∀ place, 2 ≤ place → place < sign → ∃ c ∈ name, source.HasAt place c
  inner_at : ∀ place, sign + 1 ≤ place → place < last → ∃ c ∈ inner, source.HasAt place c

section Laid

variable {name inner : List Char}

theorem exists_laid (holds : source.toList =
    ['\x7b', '\x7b'] ++ name ++ '(' :: (inner ++ [')', '\x7d', '\x7d'])) :
    ∃ sign last, Laid source name inner sign last := by
  have innerHolds : source.toList =
      (['\x7b', '\x7b'] ++ name ++ ['(']) ++ inner ++ [')', '\x7d', '\x7d'] := by simp [holds]
  have front : (['\x7b', '\x7b'] ++ name ++ ['(']).length = 2 + name.length + 1 := by
    simp
    omega
  have innerSlice := slice_middle innerHolds
  have innerAt := fun place => @exists_mem_at source _ _ _ innerHolds place
  have behind := fun index c => (@hasAt_back source _ _ _ innerHolds index c).mpr
  rw [front] at innerSlice innerAt behind
  refine ⟨2 + name.length, 2 + name.length + 1 + inner.length, ?_, ?_, ?_, ?_, ?_, ?_, ?_, ?_, ?_⟩
  · rw [size_eq_length, innerHolds, List.length_append, List.length_append, front]
    rfl
  · intro filled
    have positive := List.length_pos_of_ne_nil filled
    omega
  · omega
  · exact slice_middle holds
  · exact innerSlice
  · exact (hasAt_back holds 0).mpr rfl
  · exact behind
  · exact fun place => exists_mem_at holds
  · exact innerAt

variable (laid : Laid source name inner sign last)
variable (plain : ∀ c ∈ inner, c ∉ ['(', ')', '\x7b', '\x7d'])
include laid plain

theorem Laid.balanced (ended : source.Exposed last ')') :
    source.Matches '(' ')' 0 (sign + 1) last := by
  apply Matches.of_unexposed ended laid.ordered
  intro other after before
  obtain ⟨c, member, has⟩ := laid.inner_at other after before
  constructor
  · intro exposed
    rw [has.unique exposed.1] at member
    exact plain _ member (by decide)
  · intro exposed
    rw [has.unique exposed.1] at member
    exact plain _ member (by decide)

theorem Laid.closes (named : ∀ c ∈ name, isNameChar c = true) :
    source.Closes 0 2 (last + 1) := by
  have ordered := laid.ordered
  have brace : ∀ c, isBrace c = true → c = '\x7b' ∨ c = '\x7d' := by simp [isBrace]
  have bare : ∀ other, 2 ≤ other → other < last + 1 →
      ∃ c, source.HasAt other c ∧ isBrace c = false := by
    intro other after before
    rcases Nat.lt_trichotomy other sign with inName | rfl | behind
    · obtain ⟨c, member, has⟩ := laid.name_at other after inName
      refine ⟨c, has, Bool.eq_false_iff.mpr fun isBrace => ?_⟩
      rcases brace c isBrace with rfl | rfl <;> cases named _ member
    · exact ⟨'(', laid.opens, rfl⟩
    · rcases Nat.lt_or_eq_of_le (Nat.le_of_lt_succ before) with inInner | rfl
      · obtain ⟨c, member, has⟩ := laid.inner_at other behind inInner
        refine ⟨c, has, Bool.eq_false_iff.mpr fun isBrace => ?_⟩
        rcases brace c isBrace with rfl | rfl
        · exact plain _ member (by decide)
        · exact plain _ member (by decide)
      · exact ⟨')', laid.behind 0 ')' rfl, rfl⟩
  apply Closes.of_unmarked _ (by have := laid.opens.inside; omega)
  · intro other after before
    obtain ⟨c, has, noBrace⟩ := bare other after before
    exact unmarked_of_bare has noBrace
  · refine ⟨laid.behind 1 _ rfl, laid.behind 2 _ rfl, ?_⟩
    rw [← hidden_succ (laid.behind 0 ')' rfl)]
    exact Bool.false_ne_true

theorem Laid.read (filled : name ≠ []) (named : ∀ c ∈ name, isNameChar c = true)
    (ends : inner.getLast? ≠ some '\\') {properties : Table String String}
    (table : PropertyMap.tableOf inner = .ok properties) :
    Token.read source 0 source.size =
      .ok ⟨⟨.command, some (String.ofList name), properties⟩, none, source.size⟩ := by
  have size := laid.size
  have ended : source.Exposed last ')' :=
    PropertyMap.exposed_end laid.ordered laid.opens (laid.behind 0 ')' rfl)
      (laid.slice_inner.symm ▸ ends)
  have read := PropertyMap.read_table laid.ordered laid.opens ended (laid.slice_inner.symm ▸ table)
  have bodied : bodySpan source (source.skipBlanks (last + 1)) (last + 1) = .ok none := by
    rw [skipBlanks_eq (.empty (last + 1)) (laid.behind 1 _ rfl) rfl, bodySpan,
      if_neg (Nat.lt_irrefl _)]
    rfl
  have nameChars : ∀ place, 2 ≤ place → place < sign →
      ∃ c, source.HasAt place c ∧ isNameChar c = true := by
    intro place after before
    obtain ⟨c, member, has⟩ := laid.name_at place after before
    exact ⟨c, has, named c member⟩
  have token : Token.read source 0 source.size = _ :=
    read_map (Nat.le_refl source.size) (laid.closes plain named) (Nat.le_of_eq size.symm)
      (laid.filled filled) laid.opens nameChars (laid.balanced plain ended) (Nat.lt_succ_self last)
      read bodied
  rw [Nat.zero_add, laid.slice_name] at token
  rw [token, size]

end Laid

end Token

namespace Table

variable {Key Value : Type} [DecidableEq Key]

theorem get?_ofList (entries : List (Key × Value)) (key : Key) :
    (ofList entries).get? key = entries.reverse.lookup key := by
  induction entries using List.reverseRecOn with
  | nil => rfl
  | append_singleton entries entry ih =>
      have put : ofList (entries ++ [entry]) = (ofList entries).put entry.1 entry.2 := by
        simp [ofList]
      rw [put, get?_put, ih, List.reverse_append, List.reverse_singleton, List.singleton_append]
      exact (get?_cons key entry.1 entry.2 entries.reverse).symm

end Table

namespace Store

/-- A source that is one token without a body parses to one element. -/
theorem parse_token (checks : Bool) (store : Store) (text : String) {token : Token}
    (room : 2 ≤ (Source.ofString text).size) (marks : (Source.ofString text).Marks .opening 0)
    (read : Token.read (Source.ofString text) 0 (Source.ofString text).size = .ok token)
    (whole : token.stop = (Source.ofString text).size) (noBody : token.body = none) :
    store.parse checks text none none =
      .ok { store := store.add token.node, result := .ok store.size } := by
  have pieces := Level.pieces_token (Nat.le_refl _) room marks read
  rw [whole, Level.pieces_done, map_ok] at pieces
  have level := Level.read_filled pieces
  have parsed : parseSpan checks (Source.ofString text) store ⟨0, (Source.ofString text).size⟩ =
      .ok (store.add token.node, store.size) := by
    simp only [parseSpan, readLevel, level, layOut, Piece.node, waitingFor, Piece.body, noBody,
      Option.map_none, Option.toList_none, List.append_nil, ok_bind, pure_eq_ok, ofScan_ok]
    cases (Source.ofString text).size <;> rfl
  rw [parse_eq checks store text none none ⟨0, (Source.ofString text).size⟩ rfl (by simp)
    (Nat.zero_le _) (Nat.le_refl _), parsed]

def written (name : String) (pairs : List (String × String)) : String :=
  "\x7b\x7b" ++ name ++ "(" ++ String.ofList (PropertyMap.joined pairs) ++ ")\x7d\x7d"

/-- Pairs that are written into a token are the properties of the one command that it
parses to. Of several pairs with one key the last one counts. -/
theorem parse_written (checks : Bool) (store : Store) (name : String)
    (pairs : List (String × String)) (named : isName name = true)
    (encodable : ∀ pair ∈ pairs, PropertyMap.Encodable pair.1 pair.2) :
    store.parse checks (written name pairs) none none =
        .ok { store := store.add ⟨.command, some name, Table.ofList pairs⟩,
              result := .ok store.size } ∧
      ∀ key, (Table.ofList pairs).get? key = pairs.reverse.lookup key := by
  have holds : (Source.ofString (written name pairs)).toList = ['\x7b', '\x7b'] ++ name.toList ++
      '(' :: (PropertyMap.joined pairs ++ [')', '\x7d', '\x7d']) := by simp [written]
  obtain ⟨filled, nameChars⟩ : name.toList ≠ [] ∧ ∀ c ∈ name.toList, isNameChar c = true := by
    simpa [isName] using named
  obtain ⟨sign, last, laid⟩ := Token.exists_laid holds
  have read := laid.read (PropertyMap.joined_plain encodable) filled nameChars
    (PropertyMap.joined_ends encodable) (PropertyMap.tableOf_joined encodable)
  rw [String.ofList_toList] at read
  constructor
  · apply parse_token checks store _ _ _ read rfl rfl
    · rw [Source.size_eq_length, holds]
      simp
    · refine ⟨?_, ?_, ?_⟩
      · rw [Source.hasAt_iff, holds]
        rfl
      · rw [Source.hasAt_iff, holds]
        rfl
      · rintro ⟨_, ⟨⟩, _⟩
  · exact Table.get?_ofList pairs

/-- Commas, backslashes and equal signs in the values, and a key that comes twice. -/
theorem parse_written_twice :
    let pairs := [("a", "x,\\,=y"), ("b c", ",=,,"), ("a", "\\=\\\\ ,z")]
    isName "n_1" = true ∧ (∀ pair ∈ pairs, PropertyMap.Encodable pair.1 pair.2) ∧
      written "n_1" pairs =
        "\x7b\x7bn_1(a=x\\,\\\\,=y,b c=\\,=\\,\\,,a=\\=\\\\ \\,z)\x7d\x7d" ∧
      ({} : Store).parse true (written "n_1" pairs) none none =
        .ok { store := ({} : Store).add ⟨.command, some "n_1", Table.ofList pairs⟩,
              result := .ok 0 } ∧
      (Table.ofList pairs).get? "a" = some "\\=\\\\ ,z" := by
  intro pairs
  have named : isName "n_1" = true := by decide +kernel
  have first : PropertyMap.Encodable "a" "x,\\,=y" := by decide +kernel
  have second : PropertyMap.Encodable "b c" ",=,," := by decide +kernel
  have third : PropertyMap.Encodable "a" "\\=\\\\ ,z" := by decide +kernel
  have encodable : ∀ pair ∈ pairs, PropertyMap.Encodable pair.1 pair.2 := by
    simp only [pairs, List.mem_cons, List.not_mem_nil, or_false]
    rintro pair (rfl | rfl | rfl)
    · exact first
    · exact second
    · exact third
  obtain ⟨parsed, got⟩ := parse_written true {} "n_1" pairs named encodable
  exact ⟨named, encodable, by decide +kernel, parsed, got "a"⟩

end Store

end Stencil
