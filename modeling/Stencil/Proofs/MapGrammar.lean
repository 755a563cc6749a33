import Stencil.Proofs.EscapedText
import Stencil.Proofs.FailureCauses

/-!
The grammar of property maps, said on lists of characters. A text is cut into segments
at the bare commas outside of parentheses, and a segment into two sides at its first
bare equal sign; no position occurs in this. A map is read exactly as its grammar has
it: reading finds the pairs of all segments in their order, or it fails with the status
of the first segment that is no pair.
-/

namespace Stencil

namespace Text

/-- How many parentheses are open behind a character; one that is closed without having
been opened counts for nothing. -/
def nesting (hidden : Bool) (depth : Nat) (c : Char) : Nat :=
  if hidden then depth
  else if c = '(' then depth + 1
  else if c = ')' then depth - 1
  else depth

/-- The parts of a text between its bare commas outside of parentheses, so many of which
are open before it. Whether a backslash stands before it is told as well. -/
def segments (hidden : Bool) (depth : Nat) : List Char → List (List Char)
  | [] => [[]]
  | c :: rest =>
      if hidden = false ∧ c = ',' ∧ depth = 0 then [] :: segments false 0 rest
      else (segments (c == '\\') (nesting hidden depth c) rest).modifyHead (c :: ·)

def sides (hidden : Bool) : List Char → Option (List Char × List Char)
  | [] => none
  | c :: rest =>
      if c = '=' ∧ hidden = false then some ([], rest)
      else (sides (c == '\\') rest).map fun parts => (c :: parts.1, parts.2)

section Trim

variable {lead middle trail : List Char} {first last : Char}

theorem dropWhile_blanks (leadBlank : ∀ c ∈ lead, isBlank c = true)
    (isFirst : middle.head? = some first) (bare : isBlank first = false) :
    (lead ++ middle).dropWhile isBlank = middle := by
  rw [List.dropWhile_append_of_pos leadBlank]
  obtain ⟨rest, rfl⟩ := List.head?_eq_some_iff.mp isFirst
  rw [List.dropWhile_cons_of_neg (by simp [bare])]

theorem trimBlanks_eq (leadBlank : ∀ c ∈ lead, isBlank c = true)
    (trailBlank : ∀ c ∈ trail, isBlank c = true) (isFirst : middle.head? = some first)
    (firstBare : isBlank first = false) (isLast : middle.getLast? = some last)
    (lastBare : isBlank last = false) : trimBlanks (lead ++ middle ++ trail) = middle := by
  have begins : (middle ++ trail).head? = some first := by rw [List.head?_append, isFirst]; rfl
  have ends : middle.reverse.head? = some last := by rw [List.head?_reverse, isLast]
  have backward : ∀ c ∈ trail.reverse, isBlank c = true := fun c member =>
    trailBlank c (List.mem_reverse.mp member)
  rw [trimBlanks, List.append_assoc, dropWhile_blanks leadBlank begins firstBare, List.rdropWhile,
    List.reverse_append, dropWhile_blanks backward ends lastBare, List.reverse_reverse]

theorem trimBlanks_blank {text : List Char} (blank : ∀ c ∈ text, isBlank c = true) :
    trimBlanks text = [] := by
  rw [trimBlanks, List.dropWhile_eq_nil_iff.mpr blank]
  rfl

end Trim

end Text

namespace PropertyMap

open Text

def pairOf (segment : List Char) : Except Status (String × String) :=
  match sides false segment with
  | none => .error .mapPairMissing
  | some (left, right) =>
      if left.all isBlank then .error .mapKeyMissing
      else if right.all isBlank then .error .mapValueMissing
      else .ok (String.ofList (collapseChars (trimBlanks left)),
        String.ofList (bareCommas (collapseChars (trimBlanks right))))

def tableOf (inner : List Char) : Except Status (Table String String) :=
  if inner.all isBlank then .ok {}
  else Table.ofList <$> (segments false 0 inner).mapM pairOf

def enclosed (rest : List Char) : Except Status (Table String String) :=
  if rest.getLast? = some ')' ∧ rest.dropLast.getLast? ≠ some '\\' then tableOf rest.dropLast
  else .error .mapEndMissing

def meaning (text : List Char) : Except Status (Table String String) :=
  let trimmed := trimBlanks text
  if text = [] then .error .noTextFound
  else if trimmed.head? ≠ some '(' then .error .mapBeginMissing
  else enclosed trimmed.tail

end PropertyMap

inductive Tells {Value : Type} : Except Stop Value → Except Status Value → Prop where
  | ok (value : Value) : Tells (.ok value) (.ok value)
  | failure (status : Status) (position : Nat) : Tells (Stop.fail status position) (.error status)

theorem Tells.bind {Value Next : Type} {attempt : Except Stop Value}
    {verdict : Except Status Value} {next : Value → Except Stop Next}
    {later : Value → Except Status Next} (tells : Tells attempt verdict)
    (onward : ∀ value, Tells (next value) (later value)) :
    Tells (attempt >>= next) (verdict >>= later) := by
  cases tells with
  | ok value => exact onward value
  | failure status position => exact .failure status position

namespace Source

variable {source : Source} {start stop place before : Nat} {c d : Char}

theorem slice_whole (source : Source) : source.slice 0 source.size = source.toList := by
  rw [slice_eq, List.drop_zero, Nat.sub_zero, size_eq_length, List.take_length]

theorem mem_slice_of (has : source.HasAt place c) (after : start ≤ place) (ahead : place < stop) :
    c ∈ source.slice start stop := by
  rw [slice_append source after (Nat.le_of_lt ahead), slice_cons has ahead]
  simp

theorem Blank.slice (blanks : source.Blank start stop) :
    ∀ c ∈ source.slice start stop, isBlank c = true := by
  intro c member
  obtain ⟨place, after, ahead, has⟩ := mem_slice member
  obtain ⟨d, isAlso, blank⟩ := blanks.2 place after ahead
  exact has.unique isAlso ▸ blank

theorem blank_or_visible (ordered : start ≤ stop) (inside : stop ≤ source.size) :
    (source.slice start stop).all isBlank = true ∧ source.Blank start stop ∨
      (source.slice start stop).all isBlank = false ∧ ∃ place c, start ≤ place ∧ place < stop ∧
        source.HasAt place c ∧ isBlank c = false := by
  cases all : (source.slice start stop).all isBlank with
  | true =>
      refine Or.inl ⟨rfl, ordered, fun place after ahead => ?_⟩
      obtain ⟨c, has⟩ := @exists_hasAt source place (Nat.lt_of_lt_of_le ahead inside)
      exact ⟨c, has, List.all_eq_true.mp all c (mem_slice_of has after ahead)⟩
  | false =>
      obtain ⟨c, member, bare⟩ := List.all_eq_false.mp all
      obtain ⟨place, after, ahead, has⟩ := mem_slice member
      exact Or.inr ⟨rfl, place, c, after, ahead, has, Bool.eq_false_iff.mpr bare⟩

theorem trims_visible (inside : stop ≤ source.size) (after : start ≤ place) (ahead : place < stop)
    (has : source.HasAt place c) (bare : isBlank c = false) :
    Answers (source.retreatBlanks (stop - 1)) fun last =>
      source.skipBlanks start ≤ last ∧ last < stop ∧
        source.slice (source.skipBlanks start) (last + 1) =
          Text.trimBlanks (source.slice start stop) := by
  have within := skipBlanks_le has bare after
  obtain ⟨first, isFirst⟩ := @exists_hasAt source (source.skipBlanks start) (by omega)
  have firstBare := skipBlanks_bare isFirst
  have room : source.skipBlanks start ≤ stop - 1 := by omega
  apply (retreatBlanks_blank isFirst firstBare room (by omega)).mono
  rintro last ⟨ordered, short, behind, lastBare⟩
  have same : stop - 1 + 1 = stop := by omega
  rw [same] at behind
  obtain ⟨e, isLast⟩ := @exists_hasAt source last (by omega)
  refine ⟨ordered, by omega, ?_⟩
  rw [slice_append source (source.le_skipBlanks start) (show _ ≤ stop by omega),
    slice_append source (Nat.le_succ_of_le ordered) (show last + 1 ≤ stop by omega),
    ← List.append_assoc]
  have begins : (source.slice (source.skipBlanks start) (last + 1)).head? = some first := by
    rw [slice_cons isFirst (by omega), List.head?_cons]
  have ends : (source.slice (source.skipBlanks start) (last + 1)).getLast? = some e := by
    rw [slice_append source ordered (Nat.le_succ last), slice_one isLast, List.getLast?_concat]
  exact (Text.trimBlanks_eq skipBlanks_blank.slice behind.slice begins firstBare ends
    (lastBare e isLast)).symm

theorem skipBlanks_through (blanks : source.Blank start source.size) :
    source.size ≤ source.skipBlanks start := by
  apply Nat.le_of_not_lt
  intro short
  obtain ⟨c, has, blank⟩ := blanks.2 _ (source.le_skipBlanks start) short
  rw [skipBlanks_bare has] at blank
  cases blank

/-- Between two characters that are no blanks the scans meet if only blanks stand there. -/
theorem trims_between (ordered : before < stop) (opens : source.HasAt before c)
    (openBare : isBlank c = false) (closes : source.HasAt stop d) (closeBare : isBlank d = false) :
    Answers (source.retreatBlanks (stop - 1)) fun last =>
      if (source.slice (before + 1) stop).all isBlank then last < source.skipBlanks (before + 1)
      else source.skipBlanks (before + 1) ≤ last ∧
        source.slice (source.skipBlanks (before + 1)) (last + 1) =
          Text.trimBlanks (source.slice (before + 1) stop) := by
  have inside := Nat.le_of_lt closes.inside
  rcases @blank_or_visible source (before + 1) stop ordered inside with
    ⟨all, blanks⟩ | ⟨all, place, e, after, ahead, has, bare⟩
  · have same : stop - 1 + 1 = stop := by omega
    have retreats : source.retreatBlanks (stop - 1) = .ok before :=
      retreatBlanks_eq (by omega) (same.symm ▸ blanks) opens openBare
    rw [retreats, all, skipBlanks_eq blanks closes closeBare]
    exact .ok ordered
  · apply (trims_visible inside after ahead has bare).mono
    rintro last ⟨ordered, _, trimmed⟩
    rw [all]
    exact ⟨ordered, trimmed⟩

section Scans

variable {index depth : Nat} {hidden : Bool} {found : Option Nat}

theorem hidden_succ (has : source.HasAt index c) :
    (c == '\\') = true ↔ source.Hidden (index + 1) := by
  rw [beq_iff_eq]
  constructor
  · rintro rfl
    exact ⟨index, rfl, has⟩
  · rintro ⟨_, ⟨⟩, slash⟩
    exact has.unique slash

theorem hidden_behind_span (ordered : before < stop) (inside : stop ≤ source.size)
    (has : source.HasAt before c) (noSlash : (c == '\\') = false) :
    source.Hidden stop ↔ (source.slice (before + 1) stop).getLast? = some '\\' := by
  obtain ⟨last, rfl⟩ : ∃ last, stop = last + 1 := ⟨stop - 1, by omega⟩
  rcases Nat.lt_or_eq_of_le (Nat.le_of_lt_succ ordered) with short | rfl
  · obtain ⟨d, isLast⟩ := exists_hasAt (show last < source.size from inside)
    rw [← hidden_succ isLast, slice_append source short (Nat.le_succ last), slice_one isLast,
      List.getLast?_concat, beq_iff_eq, Option.some.injEq]
  · rw [← hidden_succ has, slice_empty, noSlash]
    exact ⟨nofun, nofun⟩

inductive Cuts (source : Source) (hidden : Bool) (depth start stop : Nat) : Option Nat → Prop where
  | whole : Text.segments hidden depth (source.slice start stop) = [source.slice start stop] →
      Cuts source hidden depth start stop none
  | comma (place : Nat) : start ≤ place → place < stop → source.HasAt place ',' →
      Text.segments hidden depth (source.slice start stop) =
        source.slice start place :: Text.segments false 0 (source.slice (place + 1) stop) →
      Cuts source hidden depth start stop (some place)

theorem Cuts.step (has : source.HasAt index c) (ahead : index < stop)
    (other : ¬ (hidden = false ∧ c = ',' ∧ depth = 0))
    (cuts : source.Cuts (c == '\\') (Text.nesting hidden depth c) (index + 1) stop found) :
    source.Cuts hidden depth index stop found := by
  cases cuts with
  | whole same =>
      apply Cuts.whole
      rw [slice_cons has ahead, Text.segments, if_neg other, same]
      rfl
  | comma place after within isComma same =>
      apply Cuts.comma place (Nat.le_of_succ_le after) within isComma
      rw [slice_cons has ahead, slice_cons has after, Text.segments, if_neg other, same]
      rfl

theorem findSeparatorFor_cuts (count depth index : Nat) (inside : index + count ≤ source.size)
    (isHidden : hidden = true ↔ source.Hidden index) :
    Answers (source.findSeparatorFor ',' '(' ')' count depth index)
      (source.Cuts hidden depth index (index + count)) := by
  induction count generalizing depth index hidden with
  | zero =>
      apply Answers.ok
      apply Cuts.whole
      rw [Nat.add_zero, slice_empty]
      rfl
  | succ count ih =>
      obtain ⟨c, has⟩ := exists_hasAt (show index < source.size by omega)
      have same : index + (count + 1) = index + 1 + count := by omega
      have onward := fun depth => ih depth (index + 1) (by omega) (hidden_succ has)
      have ahead : index < index + 1 + count := by omega
      rw [same, findSeparatorFor]
      refine (escaped_answers (show index ≤ source.size by omega)).bind fun escaped isEscaped => ?_
      obtain rfl : escaped = hidden := Bool.eq_iff_iff.mpr (isEscaped.trans isHidden.symm)
      cases escaped with
      | true =>
          have other : ¬ (true = false ∧ c = ',' ∧ depth = 0) := fun hit =>
            Bool.false_ne_true hit.1.symm
          exact (onward depth).mono fun found => Cuts.step has ahead other
      | false =>
          rw [if_neg Bool.false_ne_true, read_eq has, ok_bind]
          -- What the next character does to the depth is the same on both sides.
          by_cases cut : c = ',' ∧ depth = 0
          · obtain ⟨rfl, rfl⟩ := cut
            apply Answers.ok
            apply Cuts.comma index (Nat.le_refl index) ahead has
            rw [slice_cons has ahead, slice_empty]
            rfl
          · have other : ¬ (false = false ∧ c = ',' ∧ depth = 0) := fun hit => cut hit.2
            have later : Answers (source.findSeparatorFor ',' '(' ')' count
                (Text.nesting false depth c) (index + 1))
                (source.Cuts false depth index (index + 1 + count)) :=
              (onward _).mono fun found => Cuts.step has ahead other
            rw [if_neg cut]
            simp only [Text.nesting, Bool.false_eq_true, if_false] at later
            split
            · rename_i opens
              rwa [if_pos opens] at later
            · rename_i notOpens
              rw [if_neg notOpens] at later
              split
              · rename_i closes
                rwa [if_pos closes] at later
              · rename_i notCloses
                rwa [if_neg notCloses] at later

inductive Sided (source : Source) (hidden : Bool) (start stop : Nat) : Option Nat → Prop where
  | none : Text.sides hidden (source.slice start stop) = none →
      Sided source hidden start stop none
  | sign (place : Nat) : start ≤ place → place < stop → source.HasAt place '=' →
      Text.sides hidden (source.slice start stop) =
        some (source.slice start place, source.slice (place + 1) stop) →
      Sided source hidden start stop (some place)

theorem findFor_sided (count index : Nat) (inside : index + count ≤ source.size)
    (isHidden : hidden = true ↔ source.Hidden index) :
    Answers (source.findFor '=' count index) (source.Sided hidden index (index + count)) := by
  induction count generalizing index hidden with
  | zero =>
      apply Answers.ok
      apply Sided.none
      rw [Nat.add_zero, slice_empty]
      rfl
  | succ count ih =>
      obtain ⟨c, has⟩ := exists_hasAt (show index < source.size by omega)
      have same : index + (count + 1) = index + 1 + count := by omega
      have onward := ih (index + 1) (by omega) (hidden_succ has)
      have ahead : index < index + 1 + count := by omega
      rw [same, findFor, read_eq has, ok_bind]
      refine (escaped_answers (show index ≤ source.size by omega)).bind fun escaped isEscaped => ?_
      obtain rfl : escaped = hidden := Bool.eq_iff_iff.mpr (isEscaped.trans isHidden.symm)
      split
      · rename_i hit
        apply Answers.ok
        obtain ⟨rfl, rfl⟩ := hit
        apply Sided.sign index (Nat.le_refl index) ahead has
        rw [slice_cons has ahead, slice_empty]
        rfl
      · rename_i other
        apply onward.mono
        intro found sided
        cases sided with
        | none noSign =>
            apply Sided.none
            rw [slice_cons has ahead, Text.sides, if_neg other, noSign]
            rfl
        | sign place after within isSign parted =>
            apply Sided.sign place (Nat.le_of_succ_le after) within isSign
            rw [slice_cons has ahead, slice_cons has after, Text.sides, if_neg other, parted]
            rfl

end Scans

end Source

namespace PropertyMap

open Source

variable {source : Source} {before after first last : Nat} {c d : Char}

theorem delimiter_plain (delimited : c = '(' ∨ c = ',') :
    isBlank c = false ∧ (c == '\\') = false := by
  rcases delimited with rfl | rfl <;> exact ⟨rfl, rfl⟩

theorem readPair_tells (ordered : before < after) (opens : source.HasAt before c)
    (delimited : c = '(' ∨ c = ',') (closes : source.HasAt after d) (bare : isBlank d = false) :
    Tells (readPair source before after) (pairOf (source.slice (before + 1) after)) := by
  obtain ⟨openBare, noSlash⟩ := delimiter_plain delimited
  have inside := closes.inside
  have span : before + 1 + (after - (before + 1)) = after := by omega
  have hides := hidden_succ opens
  rw [noSlash] at hides
  obtain ⟨found, ran, sided⟩ :=
    findFor_sided (after - (before + 1)) (before + 1) (by omega) hides
  rw [span] at sided
  rw [readPair, Source.find, ran, ofScan_ok, ok_bind]
  cases sided with
  | none noSign =>
      rw [pairOf, noSign]
      exact .failure _ _
  | sign sign behind ahead isSign parted =>
      obtain ⟨keyLast, keyRan, key⟩ := trims_between behind opens openBare isSign rfl
      obtain ⟨valueLast, valueRan, value⟩ := trims_between ahead isSign rfl closes bare
      simp only [pairOf, parted, keyRan, valueRan, ofScan_ok, ok_bind, collapsed]
      split at key
      · rename_i blank
        rw [if_pos key, if_pos blank]
        exact .failure _ _
      · rename_i filled
        rw [if_neg (Nat.not_lt.mpr key.1), if_neg filled, key.2]
        split at value
        · rename_i blank
          rw [if_pos value, if_pos blank]
          exact .failure _ _
        · rename_i filled
          rw [if_neg (Nat.not_lt.mpr value.1), if_neg filled, value.2]
          exact .ok _

/-- The pairs up to the last delimiter are those of the segments, in their order. -/
theorem readPairs_tells (closes : source.HasAt last ')') (count : Nat) (ordered : before < last)
    (enough : last ≤ before + count) (opens : source.HasAt before c)
    (delimited : c = '(' ∨ c = ',') (pairs : Table String String) :
    Tells (readPairs source last count before pairs)
      ((fun read => read.foldl (fun table entry => table.put entry.1 entry.2) pairs) <$>
        (Text.segments false 0 (source.slice (before + 1) last)).mapM pairOf) := by
  have inside := closes.inside
  induction count generalizing before c pairs with
  | zero => omega
  | succ count ih =>
      have hides := hidden_succ opens
      rw [(delimiter_plain delimited).2] at hides
      have span : before + 1 + (last - (before + 1)) = last := by omega
      obtain ⟨found, ran, cuts⟩ :=
        findSeparatorFor_cuts (last - (before + 1)) 0 (before + 1) (by omega) hides
      rw [span] at cuts
      rw [readPairs, if_pos ordered, findSeparator, ran, ofScan_ok, ok_bind]
      cases cuts with
      | whole single =>
          rw [single, List.mapM_cons, List.mapM_nil, map_bind]
          apply (readPair_tells ordered opens delimited closes rfl).bind
          intro pair
          have done : readPairs source last count last (pairs.put pair.1 pair.2) =
              .ok (pairs.put pair.1 pair.2) := by
            cases count with
            | zero => rfl
            | succ count =>
                rw [readPairs, if_neg (Nat.lt_irrefl last)]
                rfl
          rw [Option.getD_none, done]
          exact .ok _
      | comma place after ahead isComma parted =>
          rw [parted, List.mapM_cons, map_bind]
          apply (readPair_tells after opens delimited isComma rfl).bind
          intro pair
          have later := ih ahead (by omega) isComma (Or.inr rfl) (pairs.put pair.1 pair.2)
          rw [Option.getD_some]
          generalize (Text.segments false 0 (source.slice (place + 1) last)).mapM pairOf = rest
            at later ⊢
          cases rest with
          | error status => exact later
          | ok others => exact later

theorem between_tells (ordered : first < last) (opens : source.HasAt first '(')
    (closes : source.HasAt last ')') :
    Tells (if source.skipBlanks (first + 1) = last then pure {}
      else readPairs source last (last - first) first {})
      (tableOf (source.slice (first + 1) last)) := by
  have inside := Nat.le_of_lt closes.inside
  rw [tableOf]
  rcases @blank_or_visible source (first + 1) last ordered inside with
    ⟨all, blanks⟩ | ⟨all, place, c, after, ahead, has, bare⟩
  · rw [if_pos (skipBlanks_eq blanks closes rfl), if_pos all]
    exact .ok _
  · have short := skipBlanks_le has bare after
    rw [if_neg (by omega), all, if_neg Bool.false_ne_true]
    exact readPairs_tells closes _ ordered (by omega) opens (Or.inl rfl) {}

/-- Behind an opening parenthesis the last character decides whether there is a map. -/
theorem closing_tells (ordered : first < last) (within : last < source.size)
    (opens : source.HasAt first '(') :
    Tells (do
        let closing ← Stop.ofScan (source.read last)
        let hidden ← Stop.ofScan (source.escaped last)
        if closing ≠ ')' ∨ hidden = true then Stop.fail .mapEndMissing last
        else if source.skipBlanks (first + 1) = last then pure {}
        else readPairs source last (last - first) first {})
      (enclosed (source.slice (first + 1) (last + 1))) := by
  obtain ⟨closing, isLast⟩ := exists_hasAt within
  obtain ⟨hidden, ran, isHidden⟩ := escaped_answers (Nat.le_of_lt within)
  rw [hidden_behind_span ordered (Nat.le_of_lt within) opens rfl] at isHidden
  rw [read_eq isLast, ofScan_ok, ok_bind, ran, ofScan_ok, ok_bind, enclosed,
    slice_append source (show first + 1 ≤ last from ordered) (Nat.le_succ last), slice_one isLast,
    List.getLast?_concat, List.dropLast_concat]
  by_cases ends : closing = ')' ∧ ¬ hidden = true
  · obtain ⟨rfl, bare⟩ := ends
    have closes : ¬ (')' ≠ ')' ∨ hidden = true) := by simp [bare]
    have exposed := mt isHidden.mpr bare
    rw [if_neg closes, if_pos (And.intro rfl exposed)]
    exact between_tells ordered opens isLast
  · rw [if_pos (by tauto), if_neg fun hit => ends ⟨Option.some.inj hit.1, mt isHidden.mp hit.2⟩]
    exact .failure _ _

theorem read_tells (source : Source) :
    Tells (PropertyMap.read source 0 source.size) (meaning source.toList) := by
  rw [PropertyMap.read, meaning, ← slice_whole]
  by_cases empty : source.size = 0
  · have none : source.slice 0 source.size = [] := by rw [empty, slice_empty]
    rw [if_pos empty, if_pos none]
    exact .failure _ _
  · have filled := slice_ne_nil (Nat.pos_of_ne_zero empty) (Nat.le_refl source.size)
    rw [if_neg empty, if_neg empty, if_neg filled]
    rcases @blank_or_visible source 0 source.size (Nat.zero_le _) (Nat.le_refl _) with
      ⟨all, blanks⟩ | ⟨all, place, c, after, ahead, has, bare⟩
    · -- Both scans run through the whole text and pass each other.
      have through := skipBlanks_through blanks
      have inside : source.size - 1 < source.size := by omega
      obtain ⟨last, ran, short⟩ := retreatBlanks_answers inside
      rw [ran, ofScan_ok, ok_bind, if_pos (by omega),
        Text.trimBlanks_blank fun c => List.all_eq_true.mp all c, if_pos (by simp)]
      exact .failure _ _
    · obtain ⟨last, ran, ordered, within, trimmed⟩ :=
        trims_visible (Nat.le_refl _) after ahead has bare
      obtain ⟨opening, isFirst⟩ := exists_hasAt (show source.skipBlanks 0 < source.size by omega)
      generalize source.skipBlanks 0 = first at *
      rw [ran, ofScan_ok, ok_bind, if_neg (Nat.not_lt.mpr ordered), read_eq isFirst, ofScan_ok,
        ok_bind, ← trimmed, slice_cons isFirst (Nat.lt_succ_of_le ordered), List.head?_cons,
        List.tail_cons]
      by_cases isOpening : opening = '('
      · subst isOpening
        rw [if_neg (not_not_intro rfl), if_neg (not_not_intro rfl)]
        rcases Nat.lt_or_eq_of_le ordered with longer | rfl
        · rw [if_neg (by omega)]
          exact closing_tells longer within isFirst
        · rw [if_pos rfl, slice_empty, enclosed, if_neg (by simp)]
          exact .failure _ _
      · have other : some opening ≠ some '(' := fun same => isOpening (Option.some.inj same)
        rw [if_pos isOpening, if_pos other]
        exact .failure _ _

/-- Every text is read as a property map exactly as the grammar has it: the answer is the
table that the segments spell, or the status of what is wrong first. -/
theorem parse_decides (text : String) :
    ∃ answer, parse text none none = .ok answer ∧
      answer.mapError Failure.status = meaning text.toList := by
  have whole : ((Source.ofString text).size - 1 + 1 : Int).toNat = (Source.ofString text).size := by
    omega
  have tells := read_tells (Source.ofString text)
  rw [toList_ofString] at tells
  simp only [parse, Option.getD_none, Int.toNat_zero, whole]
  generalize PropertyMap.read (Source.ofString text) 0 (Source.ofString text).size = attempt,
    meaning text.toList = verdict at tells ⊢
  cases tells with
  | ok pairs => exact ⟨.ok pairs, rfl, rfl⟩
  | failure status position => exact ⟨.error ⟨status, position⟩, rfl, rfl⟩

example : meaning " (a = x\\,y, b=(1,2)) ".toList = .ok ⟨[("a", "x,y"), ("b", "(1,2)")]⟩ := by
  decide +kernel

example : meaning "(a=1,)".toList = .error .mapPairMissing := by decide +kernel

end PropertyMap

end Stencil
