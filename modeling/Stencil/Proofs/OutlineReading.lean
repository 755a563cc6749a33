import Mathlib.Algebra.Order.BigOperators.Group.List
import Mathlib.Algebra.Order.Group.Nat
import Stencil.Outline
import Stencil.Proofs.LevelBounds

/-!
The outline of a span is read from its first level and from the outlines of the
bodies there. Since a body is shorter than its level, the depth that the reading
counts down is never used up, and the outline of a span satisfies the equation
that it stands for, with no depth in it. It is never a fault.
-/

namespace Stencil

def Forest.Proper : Forest → Prop
  | .nil => True
  | .cons node body rest =>
      node.Proper ∧ (node.kind = .text → body = .nil) ∧ body.Proper ∧ rest.Proper

namespace Outline

def bodySpans (pieces : List Piece) : List Span := pieces.filterMap Piece.body

def hang : List Piece → List Forest → List (Piece × Forest)
  | [], _ => []
  | piece :: rest, bodies =>
      match piece.body, bodies with
      | some _, body :: others => (piece, body) :: hang rest others
      | _, bodies => (piece, .nil) :: hang rest bodies

section Hang

variable {piece : Piece} (rest : List Piece) (bodies : List Forest)

theorem bodySpans_none (isBody : piece.body = none) :
    bodySpans (piece :: rest) = bodySpans rest := by
  simp [bodySpans, isBody]

theorem bodySpans_some {span : Span} (isBody : piece.body = some span) :
    bodySpans (piece :: rest) = span :: bodySpans rest := by
  simp [bodySpans, isBody]

theorem assemble_none (isBody : piece.body = none) :
    assemble (hang (piece :: rest) bodies) =
      .cons piece.node .nil (assemble (hang rest bodies)) := by
  simp [hang, isBody, assemble]

theorem assemble_some {span : Span} (body : Forest) (isBody : piece.body = some span) :
    assemble (hang (piece :: rest) (body :: bodies)) =
      .cons piece.node body (assemble (hang rest bodies)) := by
  simp [hang, isBody, assemble]

end Hang

theorem withBodies_eq (readBody : Span → Except Stop Forest) (pieces : List Piece) :
    withBodies readBody pieces = hang pieces <$> (bodySpans pieces).mapM readBody := by
  induction pieces with
  | nil => rfl
  | cons piece rest ih =>
      cases isBody : piece.body with
      | none =>
          simp only [withBodies, isBody, ih, bodySpans_none rest isBody, pure_eq_ok, ok_bind]
          cases (bodySpans rest).mapM readBody <;> simp [hang, isBody]
      | some span =>
          simp only [withBodies, isBody, ih, bodySpans_some rest isBody, List.mapM_cons, pure_eq_ok]
          cases readBody span with
          | error stop => simp
          | ok body => cases (bodySpans rest).mapM readBody <;> simp [hang, isBody]

theorem mapM_congr {readBody other : Span → Except Stop Forest} (spans : List Span)
    (same : ∀ span ∈ spans, readBody span = other span) :
    spans.mapM readBody = spans.mapM other := by
  induction spans with
  | nil => rfl
  | cons span rest ih =>
      rw [List.mapM_cons, List.mapM_cons, same span List.mem_cons_self,
        ih fun later member => same later (List.mem_cons_of_mem span member)]

theorem mapM_settles {bound : Nat} {readBody : Span → Except Stop Forest} {good : Forest → Prop}
    (spans : List Span) (settles : ∀ span ∈ spans, Settles bound (readBody span) good) :
    Settles bound (spans.mapM readBody) fun bodies => ∀ body ∈ bodies, good body := by
  induction spans with
  | nil => exact .ok (by simp)
  | cons span rest ih =>
      rw [List.mapM_cons]
      refine (settles span List.mem_cons_self).bind fun body isGood => ?_
      refine (ih fun later member => settles later (List.mem_cons_of_mem span member)).bind ?_
      intro bodies areGood
      refine .ok ?_
      intro one member
      rcases List.mem_cons.mp member with same | later
      · exact same ▸ isGood
      · exact areGood one later

theorem body_shorter {pieces : List Piece} {span : Span}
    (fits : ∀ piece ∈ pieces, Level.Fits piece span.stop)
    (loads : (pieces.map Level.load).sum ≤ span.length) :
    ∀ body ∈ bodySpans pieces, body.length < span.length ∧ body.stop ≤ span.stop := by
  intro body member
  obtain ⟨piece, isPiece, isBody⟩ := List.mem_filterMap.mp member
  have load : Level.load piece ≤ (pieces.map Level.load).sum :=
    List.le_sum_of_mem (List.mem_map_of_mem isPiece)
  simp only [Level.load, isBody, Option.map_some, Option.getD_some] at load
  exact ⟨by omega, (fits piece isPiece).body body isBody⟩

theorem assemble_proper {pieces : List Piece} {bodies : List Forest} {stop : Nat}
    (fits : ∀ piece ∈ pieces, Level.Fits piece stop) (proper : ∀ body ∈ bodies, body.Proper) :
    (assemble (hang pieces bodies)).Proper := by
  induction pieces generalizing bodies with
  | nil => exact trivial
  | cons piece rest ih =>
      have first := fits piece List.mem_cons_self
      have later := fun other member => fits other (List.mem_cons_of_mem piece member)
      unfold hang
      split
      · rename_i span body others isBody
        refine ⟨first.proper, fun isText => ?_, proper body List.mem_cons_self, ?_⟩
        · exact absurd isText (first.noText (by rw [isBody]; rfl))
        · exact ih later fun other member => proper other (List.mem_cons_of_mem body member)
      · exact ⟨first.proper, fun _ => rfl, trivial, ih later proper⟩

theorem assemble_ne_nil {pieces : List Piece} (bodies : List Forest) (filled : pieces ≠ []) :
    assemble (hang pieces bodies) ≠ .nil := by
  cases pieces with
  | nil => exact absurd rfl filled
  | cons piece rest =>
      unfold hang
      split <;> exact Forest.noConfusion

variable (source : Source)

theorem readFor_succ (depth : Nat) (span : Span) :
    readFor source (depth + 1) span = (do
      let pieces ← Level.read source span
      let bodies ← (bodySpans pieces).mapM (readFor source depth)
      pure (assemble (hang pieces bodies))) := by
  rw [readFor]
  cases Level.read source span with
  | error stop => rfl
  | ok pieces =>
      simp only [ok_bind, withBodies_eq]
      cases (bodySpans pieces).mapM (readFor source depth) <;> rfl

theorem readFor_settles (depth : Nat) (span : Span) (inside : span.stop ≤ source.size)
    (enough : span.length < depth) :
    Settles source.size (readFor source depth span) fun forest =>
      forest.Proper ∧ forest ≠ .nil := by
  induction depth generalizing span with
  | zero => omega
  | succ depth ih =>
      rw [readFor_succ]
      refine (Level.read_settles inside).bind fun pieces known => ?_
      obtain ⟨fits, loads, filled⟩ := known
      have shorter := body_shorter fits loads
      have below : ∀ body ∈ bodySpans pieces, Settles source.size (readFor source depth body)
          fun forest => forest.Proper ∧ forest ≠ .nil := by
        intro body member
        obtain ⟨less, within⟩ := shorter body member
        exact ih body (by omega) (by omega)
      refine (mapM_settles (bodySpans pieces) below).bind fun bodies proper => ?_
      exact .ok ⟨assemble_proper fits fun body member => (proper body member).1,
        assemble_ne_nil bodies filled⟩

/-- More depth than the length of the span makes no difference. -/
theorem readFor_depth (depth more : Nat) (span : Span) (inside : span.stop ≤ source.size)
    (enough : span.length < depth) (moreEnough : span.length < more) :
    readFor source depth span = readFor source more span := by
  induction depth generalizing span more with
  | zero => omega
  | succ depth ih =>
      -- Either depth is enough for the bodies, since they are shorter.
      obtain ⟨more, rfl⟩ : ∃ fewer, more = fewer + 1 := ⟨more - 1, by omega⟩
      rw [readFor_succ, readFor_succ]
      rcases Level.read_settles inside with ⟨pieces, ran, fits, loads, _⟩ | ⟨failure, ran, _⟩
      · have shorter := body_shorter fits loads
        rw [ran, ok_bind, ok_bind, mapM_congr (bodySpans pieces) fun body member => ?_]
        obtain ⟨less, within⟩ := shorter body member
        exact ih more body (by omega) (by omega) (by omega)
      · rw [ran]
        rfl

theorem read_settles {span : Span} (inside : span.stop ≤ source.size) :
    Settles source.size (read source span) fun forest => forest.Proper ∧ forest ≠ .nil :=
  readFor_settles source _ span inside (Nat.lt_succ_self _)

theorem read_empty {span : Span} (empty : span.stop ≤ span.start) :
    read source span = .ok (.cons ⟨.text, some "", {}⟩ .nil .nil) := by
  simp [read, readFor, Level.read_empty source empty, withBodies, assemble, Piece.body, Piece.node]

theorem read_eq {span : Span} (inside : span.stop ≤ source.size) :
    read source span = (do
      let pieces ← Level.read source span
      let bodies ← (bodySpans pieces).mapM (read source)
      pure (assemble (hang pieces bodies))) := by
  rw [read, readFor_succ]
  rcases Level.read_settles inside with ⟨pieces, ran, fits, loads, _⟩ | ⟨failure, ran, _⟩
  · have shorter := body_shorter fits loads
    rw [ran, ok_bind, ok_bind, mapM_congr (bodySpans pieces) fun body member => ?_]
    obtain ⟨less, within⟩ := shorter body member
    exact readFor_depth source _ _ body (by omega) less (Nat.lt_succ_self _)
  · rw [ran]
    rfl

end Outline

end Stencil
