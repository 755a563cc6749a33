import Stencil.Proofs.OutlineReading
import Stencil.Proofs.Spelling

/-!
An outline accounts for every character of its source. The pieces of a level tile
its span: each of them fills the source from one cut point to the next, a text
with the characters there and a token from marker to marker. The body of a token
is a level of its own and tiles in turn. Since a run of text is cut short by a
token only, no two texts stand side by side, and the forest is in normal form.
-/

namespace Stencil

/-- What an element of an outline says: a text says something and has no
properties, and neither has a variable. -/
structure Node.Normal (node : Node) : Prop extends node.Proper where
  filled : node.kind = .text → node.text ≠ some ""
  plain : node.kind ≠ .command → node.properties = {}

namespace Forest

def TextFirst : Forest → Prop
  | .nil => False
  | .cons node _ _ => node.kind = .text

def Normal : Forest → Prop
  | .nil => True
  | .cons node body rest => node.Normal ∧
      (node.kind = .text → body = .nil ∧ ¬ rest.TextFirst) ∧ body.Normal ∧ rest.Normal

def run (source : Source) (start stop : Nat) : Node :=
  ⟨.text, some (String.ofList (Text.collapseChars (source.slice start stop))), {}⟩

/-- The nodes of the forest fill the span from cut point to cut point, and those
of a body fill the span of the body. -/
inductive Accounts (source : Source) : Nat → Nat → Forest → Prop where
  | nil (stop : Nat) : Accounts source stop stop .nil
  | text (start next stop : Nat) (rest : Forest) : start < next → next ≤ source.size →
      source.Runs start next stop → ¬ rest.TextFirst → Accounts source next stop rest →
      Accounts source start stop (.cons (run source start next) .nil rest)
  | bare (start closing stop : Nat) (node : Node) (rest : Forest) :
      Token.Spelled source node none start closing → Accounts source (closing + 2) stop rest →
      Accounts source start stop (.cons node .nil rest)
  | full (start closing stop : Nat) (span : Span) (node : Node) (body rest : Forest) :
      Token.Spelled source node (some span) start closing →
      Accounts source span.start span.stop body → Accounts source (closing + 2) stop rest →
      Accounts source start stop (.cons node body rest)

end Forest

namespace Token

variable {source : Source} {node : Node} {start stop closing : Nat}

theorem Joint.ordered {kind : Kind} {properties : Table String String}
    (joint : Joint source kind properties start stop) : start ≤ stop := by
  cases joint with
  | sign _ _ _ before _ after => exact Nat.le_trans before.1 (Nat.le_of_succ_le after.1)
  | map _ _ _ _ _ before _ ordered _ after =>
      exact Nat.le_trans before.1 (Nat.le_trans (Nat.le_of_lt ordered) (Nat.le_of_succ_le after.1))
  | plain _ _ before _ _ => exact before.1

theorem Trails.ordered {body : Option Span} (trails : Trails source closing start body) :
    start ≤ closing := by
  cases trails with
  | none => exact Nat.le_refl _
  | some _ _ filled blanks => exact Nat.le_trans (Nat.le_of_lt filled) blanks.1

theorem Spelled.normal {body : Option Span} (spelled : Spelled source node body start closing) :
    node.Normal ∧ node.kind ≠ .text := by
  obtain ⟨name, bodyStart, _, filled, named, text, joint, trails⟩ := spelled.parts
  have inside : closing < source.size := spelled.closes.bounds.2.1.inside
  have before := Nat.le_trans joint.ordered trails.ordered
  have valid := isName_ofList (Source.slice_ne_nil filled (by omega)) named
  have noText : node.kind ≠ .text := by
    intro isText
    rw [isText] at joint
    cases joint
  refine ⟨⟨⟨by rw [text]; rfl, fun _ => ⟨_, text, valid⟩⟩, fun isText => absurd isText noText, ?_⟩,
    noText⟩
  intro noCommand
  generalize node.kind = kind, node.properties = properties at joint noCommand
  cases joint with
  | sign => rfl
  | map => exact absurd rfl noCommand
  | plain => rfl

theorem Spelled.body_room {span : Span}
    (spelled : Spelled source node (some span) start closing) :
    start + 2 ≤ span.start ∧ span.start < span.stop ∧ span.stop ≤ closing := by
  obtain ⟨name, bodyStart, blanks, filled, _, _, joint, trails⟩ := spelled.parts
  have nameFirst := blanks.1
  have nameLast := joint.ordered
  cases trails with
  | some _ _ room behind => exact ⟨by simp only; omega, room, behind.1⟩

theorem Spelled.head {body : Option Span} (spelled : Spelled source node body start closing)
    {c : Char} (has : source.HasAt (start + 2) c) : isBlank c = true ∨ isNameChar c = true := by
  obtain ⟨name, _, blanks, filled, named, _⟩ := spelled.parts
  rcases Nat.lt_or_eq_of_le blanks.1 with later | here
  · obtain ⟨d, hasBlank, blank⟩ := blanks.2 (start + 2) (Nat.le_refl _) later
    exact Or.inl ((has.unique hasBlank).symm ▸ blank)
  · rw [← here] at filled named
    exact Or.inr (named c (has.mem_slice (Nat.le_refl _) filled))

end Token

theorem Forest.run_normal {source : Source} {start stop : Nat} (room : start < stop)
    (inside : stop ≤ source.size) : (run source start stop).Normal := by
  refine ⟨⟨rfl, fun noText => absurd rfl noText⟩, fun _ empty => ?_, fun _ => rfl⟩
  have noChars := congrArg String.toList (Option.some.inj empty)
  simp only [String.toList_ofList, String.toList_empty] at noChars
  exact Source.slice_ne_nil room inside (Text.collapseChars_eq_nil.mp noChars)

theorem Forest.Accounts.normal {source : Source} {start stop : Nat} {forest : Forest}
    (accounts : Accounts source start stop forest) : forest.Normal := by
  induction accounts with
  | nil => exact trivial
  | text start next stop rest room inside _ apart _ ih =>
      exact ⟨run_normal room inside, fun _ => ⟨rfl, apart⟩, trivial, ih⟩
  | bare _ _ _ _ _ spelled _ ih =>
      exact ⟨spelled.normal.1, fun isText => absurd isText spelled.normal.2, trivial, ih⟩
  | full _ _ _ _ _ _ _ spelled _ _ ihBody ihRest =>
      exact ⟨spelled.normal.1, fun isText => absurd isText spelled.normal.2, ihBody, ihRest⟩

section Tokens

variable {source : Source} {start place stop : Nat} {forest : Forest}

theorem Forest.Accounts.of_nil (accounts : Forest.nil.Accounts source start stop) :
    start = stop := by
  cases accounts
  rfl

theorem Forest.Accounts.token_here (accounts : forest.Accounts source start stop)
    (room : start + 2 ≤ stop) (marks : source.Marks .opening start) :
    ∃ node body rest span closing, forest = .cons node body rest ∧
      Token.Spelled source node span start closing ∧ rest.Accounts source (closing + 2) stop := by
  cases accounts with
  | nil => omega
  | text _ next _ rest longer _ runs =>
      exact absurd marks (runs.bare start (Nat.le_refl start) longer room).1
  | bare _ closing _ node rest spelled after =>
      exact ⟨node, .nil, rest, none, closing, rfl, spelled, after⟩
  | full _ closing _ span node body rest spelled _ after =>
      exact ⟨node, body, rest, some span, closing, rfl, spelled, after⟩

theorem Forest.Accounts.token_at (accounts : forest.Accounts source start stop)
    (ahead : start ≤ place) (room : place + 2 ≤ stop) (marks : source.Marks .opening place)
    (first : ∀ other, start ≤ other → other < place → ¬ source.Marks .opening other) :
    ∃ node span closing, Token.Spelled source node span place closing := by
  rcases Nat.lt_or_eq_of_le ahead with later | rfl
  · cases accounts with
    | nil => omega
    | text _ next _ rest longer _ runs _ after =>
        have reaches : next ≤ place := Nat.le_of_not_lt fun beyond =>
          (runs.bare place ahead beyond room).1 marks
        have cut := (runs.cut (by omega)).2
        obtain rfl : next = place := by
          rcases Nat.lt_or_eq_of_le reaches with short | same
          · exact absurd cut (first next runs.ahead short)
          · exact same
        obtain ⟨node, _, _, span, closing, _, spelled, _⟩ := after.token_here room marks
        exact ⟨node, span, closing, spelled⟩
    | bare _ _ _ _ _ spelled =>
        exact absurd spelled.opens (first start (Nat.le_refl start) later)
    | full _ _ _ _ _ _ _ spelled =>
        exact absurd spelled.opens (first start (Nat.le_refl start) later)
  · obtain ⟨node, _, _, span, closing, _, spelled, _⟩ := accounts.token_here room marks
    exact ⟨node, span, closing, spelled⟩

end Tokens

namespace Level

variable {source : Source} {start stop : Nat} {pieces : List Piece}

def TokenFirst (pieces : List Piece) : Prop := ∀ piece ∈ pieces.head?, piece.node.kind ≠ .text

inductive Tiles (source : Source) (stop : Nat) : Nat → List Piece → Prop where
  | nil : Tiles source stop stop []
  | text (start next : Nat) (rest : List Piece) : start < next → next ≤ source.size →
      source.Runs start next stop → TokenFirst rest → Tiles source stop next rest →
      Tiles source stop start
        (.text (String.ofList (Text.collapseChars (source.slice start next))) :: rest)
  | token (start closing : Nat) (token : Token) (rest : List Piece) :
      Token.Spelled source token.node token.body start closing →
      Tiles source stop (closing + 2) rest → Tiles source stop start (.token token :: rest)

/-- What is read where a run was cut short begins with a token, so it may stand
behind the text of the run. -/
theorem piecesFor_tiles (inside : stop ≤ source.size) (count index : Nat) (ordered : index ≤ stop)
    (enough : stop ≤ index + count) (read : piecesFor source stop count index = .ok pieces) :
    Tiles source stop index pieces ∧
      ((index < stop → index + 2 ≤ stop ∧ source.Marks .opening index) → TokenFirst pieces) := by
  induction count generalizing index pieces with
  | zero =>
      obtain rfl : index = stop := by omega
      cases read
      exact ⟨.nil, fun _ => by simp [TokenFirst]⟩
  | succ count ih =>
      unfold piecesFor at read
      split at read
      · rename_i more
        obtain ⟨opens, marked, read⟩ := bind_eq_ok.mp read
        have isOpening := (Source.markerAt_answers .opening inside).of_ok (ofScan_eq_ok.mp marked)
        cases opens with
        | true =>
            obtain ⟨token, found, read⟩ := bind_eq_ok.mp read
            obtain ⟨rest, later, read⟩ := bind_eq_ok.mp read
            cases read
            obtain ⟨closing, stops, room, spelled⟩ :=
              Token.read_spelled (isOpening.mp rfl).2 inside found
            have ahead := spelled.closes.bounds.1
            rw [stops] at later
            refine ⟨.token index closing token rest spelled (ih _ room (by omega) later).1, ?_⟩
            rintro _ piece ⟨⟩
            exact spelled.normal.2
        | false =>
            obtain ⟨next, found, read⟩ := bind_eq_ok.mp read
            obtain ⟨rest, later, read⟩ := bind_eq_ok.mp read
            have ran := (runStop_eq_ok inside ordered).mp found
            have longer := ((runStop_settles inside more (ofScan_eq_ok.mp marked)).of_ok found).1
            have within := ran.inside
            rw [textPiece_filled longer (by omega)] at read
            cases read
            obtain ⟨tiles, tokenFirst⟩ := ih next within (by omega) later
            refine ⟨.text index next rest longer (by omega) ran (tokenFirst ran.cut) tiles,
              fun cut => ?_⟩
            exact absurd (isOpening.mpr (cut more)) Bool.false_ne_true
      · obtain rfl : index = stop := by omega
        cases read
        exact ⟨.nil, fun _ => by simp [TokenFirst]⟩

theorem Tiles.body_room (tiles : Tiles source stop start pieces) :
    ∀ span ∈ Outline.bodySpans pieces, span.start < span.stop := by
  induction tiles with
  | nil => simp [Outline.bodySpans]
  | text start next rest _ _ _ _ _ ih => rwa [Outline.bodySpans_none rest rfl]
  | token start closing token rest spelled _ ih =>
      cases isBody : (Piece.token token).body with
      | none => rwa [Outline.bodySpans_none rest isBody]
      | some span =>
          rw [Outline.bodySpans_some rest isBody]
          change token.body = some span at isBody
          rw [isBody] at spelled
          intro other member
          rcases List.mem_cons.mp member with rfl | later
          · exact spelled.body_room.2.1
          · exact ih other later

theorem read_tiles {span : Span} (inside : span.stop ≤ source.size) (room : span.start < span.stop)
    (read : Level.read source span = .ok pieces) : Tiles source span.stop span.start pieces := by
  obtain ⟨found, ran, rfl⟩ := map_eq_ok read
  have tiles := (piecesFor_tiles inside _ span.start (Nat.le_of_lt room) (by omega) ran).1
  cases found with
  | nil =>
      generalize span.start = start, span.stop = stop at tiles room
      cases tiles
      exact absurd room (Nat.lt_irrefl _)
  | cons piece rest => exact tiles

end Level

namespace Outline

variable {source : Source} {start stop : Nat} {pieces : List Piece} {bodies : List Forest}

theorem assemble_tokenFirst (tokenFirst : Level.TokenFirst pieces) :
    ¬ (assemble (hang pieces bodies)).TextFirst := by
  cases pieces with
  | nil => exact id
  | cons piece rest =>
      unfold hang
      split <;> exact tokenFirst piece rfl

/-- Where the bodies account for their spans, the level with its bodies does for its own. -/
theorem assemble_accounts {readBody : Span → Except Stop Forest}
    (tiles : Level.Tiles source stop start pieces)
    (below : ∀ span ∈ bodySpans pieces, ∀ body, readBody span = .ok body →
      body.Accounts source span.start span.stop)
    (read : (bodySpans pieces).mapM readBody = .ok bodies) :
    (assemble (hang pieces bodies)).Accounts source start stop := by
  induction tiles generalizing bodies with
  | nil => exact .nil stop
  | text start next rest room inside runs tokenFirst _ ih =>
      rw [bodySpans_none rest rfl] at below read
      rw [assemble_none rest bodies rfl]
      exact .text start next stop _ room inside runs (assemble_tokenFirst tokenFirst)
        (ih below read)
  | token start closing token rest spelled _ ih =>
      cases isBody : (Piece.token token).body with
      | none =>
          rw [bodySpans_none rest isBody] at below read
          rw [assemble_none rest bodies isBody]
          change token.body = none at isBody
          rw [isBody] at spelled
          exact .bare start closing stop token.node _ spelled (ih below read)
      | some span =>
          rw [bodySpans_some rest isBody] at below read
          rw [List.mapM_cons] at read
          obtain ⟨body, bodyRead, read⟩ := bind_eq_ok.mp read
          obtain ⟨others, othersRead, read⟩ := bind_eq_ok.mp read
          cases read
          rw [assemble_some rest others body isBody]
          change token.body = some span at isBody
          rw [isBody] at spelled
          exact .full start closing stop span token.node body _ spelled
            (below span List.mem_cons_self body bodyRead)
            (ih (fun later member => below later (List.mem_cons_of_mem span member)) othersRead)

/-- The outline of a span that is not empty accounts for it, and so does that of
every body in it. -/
theorem readFor_accounts (depth : Nat) (span : Span) (inside : span.stop ≤ source.size)
    (room : span.start < span.stop) {forest : Forest}
    (read : readFor source depth span = .ok forest) :
    forest.Accounts source span.start span.stop := by
  induction depth generalizing span forest with
  | zero => cases read
  | succ depth ih =>
      rw [readFor_succ] at read
      obtain ⟨pieces, level, read⟩ := bind_eq_ok.mp read
      obtain ⟨bodies, bodiesRead, read⟩ := bind_eq_ok.mp read
      cases read
      have tiles := Level.read_tiles inside room level
      obtain ⟨fits, loads, _⟩ := (Level.read_settles inside).of_ok level
      refine assemble_accounts tiles (fun body member forest bodyRead => ?_) bodiesRead
      have within := (body_shorter fits loads body member).2
      exact ih body (Nat.le_trans within inside) (tiles.body_room body member) bodyRead

end Outline

end Stencil
