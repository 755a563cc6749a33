import Mathlib.Data.List.Forall2
import Stencil.Proofs.EvaluationStages

/-!
Two evaluations side by side. The second has settings and a world of its own. Its world
is the twin of the first one, and the scripts that it calls match those of the first one
action by action; so both take the same way, stage by stage. What the operations do to a
pair of twins is given once, and from that the whole evaluations end alike: both or
neither, with outputs that go together, with the same faults, and in worlds that are
twins again.
-/

namespace Stencil

inductive Handler.Matches (alike : Action → Action → Prop) : Handler → Handler → Prop where
  | script {actions others : List Action} (each : List.Forall₂ alike actions others) :
      Matches alike (.script actions) (.script others)
  | inert : Matches alike .inert .inert

inductive Reply.Matches (agrees : String → String → Prop) : Reply → Reply → Prop where
  | same (reply : Reply) : Matches agrees reply reply
  | text {text told : String} (goes : agrees text told) : Matches agrees (.text text) (.text told)

inductive Demand.Matches (agrees : String → String → Prop) : Demand → Demand → Prop where
  | add {text told : String} (goes : agrees text told) : Matches agrees (.add text) (.add told)
  | finish (reply : Reply) : Matches agrees (.finish reply) (.finish reply)
  | render (start : Option ElementId) (toEnd : Bool) :
      Matches agrees (.render start toEnd) (.render start toEnd)

namespace World

section Pairs

variable {First Second Next Later : Type}

theorem rel_bind {related : First → Second → Prop} {goes : Next → Later → Prop}
    {first : Option First} {second : Option Second} {next : First → Option Next}
    {later : Second → Option Later} (both : Option.Rel related first second)
    (onward : ∀ value told, first = some value → related value told →
      Option.Rel goes (next value) (later told)) :
    Option.Rel goes (first >>= next) (second >>= later) := by
  cases both with
  | none => exact .none
  | some pair => exact onward _ _ rfl pair

theorem rel_map {related : First → Second → Prop} {goes : Next → Later → Prop}
    {first : Option First} {second : Option Second} {next : First → Next} {later : Second → Later}
    (both : Option.Rel related first second)
    (onward : ∀ value told, related value told → goes (next value) (later told)) :
    Option.Rel goes (first.map next) (second.map later) := by
  cases both with
  | none => exact .none
  | some pair => exact .some (onward _ _ pair)

end Pairs

inductive Paired {Error Value : Type} (agrees : Value → Value → Prop)
    (twin : World → World → Prop) :
    Except Error Value × World → Except Error Value × World → Prop where
  | ok {value told : Value} {world mate : World} (goes : agrees value told)
      (twins : twin world mate) : Paired agrees twin (.ok value, world) (.ok told, mate)
  | error (error : Error) {world mate : World} (twins : twin world mate) :
      Paired agrees twin (.error error, world) (.error error, mate)

/-- Replies that match are written alike, or neither of them can be. -/
theorem paired_rendered {agrees : String → String → Prop} {twin : World → World → Prop}
    (same : ∀ text, agrees text text) {reply told : Reply} (matching : reply.Matches agrees told)
    {world mate : World} (twins : twin world mate) :
    Paired agrees twin (reply.rendered, world) (told.rendered, mate) := by
  cases matching with
  | text goes => exact .ok goes twins
  | same reply =>
      cases reply.rendered with
      | ok output => exact .ok (same output) twins
      | error fault => exact .error fault twins

/-- What the operations of an evaluation that starts at `origin` do to a world and its
twin. Where scripts are called, cached or carried out, only the stages of that
evaluation count. -/
structure Abreast (settings other : Settings) (origin : Stage) (twin : World → World → Prop)
    (agrees : String → String → Prop) (alike : Action → Action → Prop) : Prop where
  limit : other.maxDepth = settings.maxDepth
  store : ∀ world mate, twin world mate → mate.store = world.store
  depth : ∀ world mate, twin world mate → mate.context.depth = world.context.depth
  cache : ∀ world mate, twin world mate → mate.context.cache = world.context.cache
  expanding : ∀ world mate, twin world mate → mate.context.expanding = world.context.expanding
  same : ∀ text, agrees text text
  join : ∀ text told more others, agrees text told → agrees more others →
    agrees (text ++ more) (told ++ others)
  note : ∀ world mate notices, twin world mate →
    twin (note settings notices world) (World.note other notices mate)
  deeper : ∀ world mate, twin world mate → twin world.deeper mate.deeper
  shallower : ∀ world mate, twin world mate → twin world.shallower mate.shallower
  enters : ∀ world mate name chain, twin world mate →
    twin (world.enterPin name chain) (mate.enterPin name chain)
  leaves : ∀ world mate name chain, twin world mate →
    twin (world.leavePin name chain) (mate.leavePin name chain)
  assigns : ∀ fuel world between beside id, twin between beside →
    During settings origin ⟨fuel, world, .one id⟩ → world.store.kind? id = some .variable →
    Option.Rel twin (between.cacheCopy settings (world.store.text id) (between.store.child id))
      (beside.cacheCopy other (world.store.text id) (between.store.child id))
  calls : ∀ fuel world mate id, twin world mate → During settings origin ⟨fuel, world, .one id⟩ →
    world.store.kind? id = some .command →
    Option.Rel (Handler.Matches alike) (world.context.commands.get? (world.store.text id))
      (mate.context.commands.get? (world.store.text id))
  performs : ∀ fuel world mate element action counterpart rest output, twin world mate →
    During settings origin ⟨fuel, world, .run element (action :: rest) output⟩ →
    alike action counterpart →
    Paired (Demand.Matches agrees) twin (world.perform settings element action)
      (mate.perform other element counterpart)

section Abreast

variable {settings other : Settings} {origin : Stage} {twin : World → World → Prop}
variable {agrees : String → String → Prop} {alike : Action → Action → Prop}

structure AbreastFor (settings other : Settings) (origin : Stage) (twin : World → World → Prop)
    (agrees : String → String → Prop) (alike : Action → Action → Prop) (fuel : Nat) : Prop where
  render : ∀ world mate start toEnd, twin world mate →
    During settings origin ⟨fuel, world, .render start toEnd⟩ →
    Option.Rel (Paired agrees twin) (render settings fuel world start toEnd)
      (World.render other fuel mate start toEnd)
  follow : ∀ world mate id toEnd, twin world mate →
    During settings origin ⟨fuel, world, .follow id toEnd⟩ →
    Option.Rel (Paired agrees twin) (renderFrom settings fuel world id toEnd)
      (renderFrom other fuel mate id toEnd)
  one : ∀ world mate id, twin world mate → During settings origin ⟨fuel, world, .one id⟩ →
    Option.Rel (Paired agrees twin) (renderOne settings fuel world id)
      (renderOne other fuel mate id)
  value : ∀ world mate name, twin world mate → During settings origin ⟨fuel, world, .value name⟩ →
    Option.Rel (Paired agrees twin) (renderCached settings fuel world name)
      (renderCached other fuel mate name)
  call : ∀ world mate handler counterpart element, twin world mate →
    During settings origin ⟨fuel, world, .call handler element⟩ →
    handler.Matches alike counterpart →
    Option.Rel (Paired (Reply.Matches agrees) twin)
      (call settings fuel world handler element) (World.call other fuel mate counterpart element)
  run : ∀ world mate element actions counterparts output told, twin world mate →
    During settings origin ⟨fuel, world, .run element actions output⟩ →
    List.Forall₂ alike actions counterparts → agrees output told →
    Option.Rel (Paired (Reply.Matches agrees) twin)
      (run settings fuel world element actions output)
      (World.run other fuel mate element counterparts told)

variable (abreast : Abreast settings other origin twin agrees alike)
include abreast

section Fueled

variable {fuel : Nat} (below : AbreastFor settings other origin twin agrees alike fuel)
include below

theorem render_abreast (world mate : World) (start : Option ElementId) (toEnd : Bool)
    (twins : twin world mate)
    (here : During settings origin ⟨fuel + 1, world, .render start toEnd⟩) :
    Option.Rel (Paired agrees twin) (render settings (fuel + 1) world start toEnd)
      (render other (fuel + 1) mate start toEnd) := by
  cases start with
  | none => exact .some (.ok (abreast.same "") twins)
  | some id =>
      simp only [render, abreast.limit, abreast.depth world mate twins]
      split
      · exact .some (.ok (abreast.same "") (abreast.note world mate _ twins))
      · rename_i left
        have deeper := abreast.deeper world mate twins
        refine rel_bind (below.follow _ _ id toEnd deeper (here.tail (.render left))) ?_
        rintro _ _ _ (⟨goes, ends⟩ | ⟨fault, ends⟩)
        · exact .some (.ok goes (abreast.shallower _ _ ends))
        · exact .some (.error fault (abreast.shallower _ _ ends))

theorem renderFrom_abreast (world mate : World) (id : ElementId) (toEnd : Bool)
    (twins : twin world mate)
    (here : During settings origin ⟨fuel + 1, world, .follow id toEnd⟩) :
    Option.Rel (Paired agrees twin) (renderFrom settings (fuel + 1) world id toEnd)
      (renderFrom other (fuel + 1) mate id toEnd) := by
  simp only [renderFrom]
  refine rel_bind (below.one world mate id twins (here.tail .one)) ?_
  rintro _ _ ran (@⟨output, told, between, beside, goes, ends⟩ | ⟨fault, ends⟩)
  · simp only [abreast.store _ _ ends]
    cases toEnd with
    | false => exact .some (.ok goes ends)
    | true =>
        simp only [if_true]
        cases isNext : between.store.next id with
        | none => exact .some (.ok goes ends)
        | some next =>
            refine rel_bind (below.follow _ _ next true ends (here.tail (.next ran isNext))) ?_
            rintro _ _ _ (⟨more, after⟩ | ⟨fault, after⟩)
            · exact .some (.ok (abreast.join _ _ _ _ goes more) after)
            · exact .some (.error fault after)
  · exact .some (.error fault ends)

theorem renderOne_abreast (world mate : World) (id : ElementId) (twins : twin world mate)
    (here : During settings origin ⟨fuel + 1, world, .one id⟩) :
    Option.Rel (Paired agrees twin) (renderOne settings (fuel + 1) world id)
      (renderOne other (fuel + 1) mate id) := by
  simp only [renderOne, abreast.store world mate twins]
  cases isKind : world.store.kind? id with
  | none => exact .some (.ok (abreast.same "") twins)
  | some kind =>
      cases kind with
      | text =>
          cases world.store.text id with
          | none => exact .some (.error _ twins)
          | some text => exact .some (.ok (abreast.same _) twins)
      | «variable» =>
          cases isBody : world.store.child id with
          | none => exact below.value world mate _ twins (here.tail (.value isKind isBody))
          | some body =>
              refine rel_bind (below.render world mate (some body) true twins
                (here.tail (.body isKind isBody))) ?_
              rintro _ _ _ (@⟨output, told, between, beside, goes, ends⟩ | ⟨fault, ends⟩)
              · have copies := abreast.assigns _ world between beside id ends here isKind
                simp only [concludeAssignment, abreast.store _ _ ends]
                exact rel_map copies fun _ _ after => .ok goes after
              · exact .some (.error fault ends)
      | command =>
          -- Both worlds have a handler of this name, or neither has one.
          have handlers := abreast.calls _ world mate id twins here isKind
          cases isHandler : world.context.commands.get? (world.store.text id) with
          | none =>
              rw [isHandler] at handlers
              cases missing : mate.context.commands.get? (world.store.text id) with
              | none => exact .some (.ok (abreast.same "") (abreast.note world mate _ twins))
              | some counterpart =>
                  rw [missing] at handlers
                  cases handlers
          | some handler =>
              rw [isHandler] at handlers
              cases isCounterpart : mate.context.commands.get? (world.store.text id) with
              | none =>
                  rw [isCounterpart] at handlers
                  cases handlers
              | some counterpart =>
                  rw [isCounterpart] at handlers
                  obtain ⟨matching⟩ := handlers
                  refine rel_bind (below.call world mate handler counterpart (some id) twins
                    (here.tail (.call isKind isHandler)) matching) ?_
                  rintro _ _ _ (⟨matching, ends⟩ | ⟨trouble, ends⟩)
                  · exact .some (paired_rendered abreast.same matching ends)
                  · exact .some (.ok (abreast.same "") (abreast.note _ _ _ ends))

theorem renderCached_abreast (world mate : World) (name : Option String)
    (twins : twin world mate) (here : During settings origin ⟨fuel + 1, world, .value name⟩) :
    Option.Rel (Paired agrees twin) (renderCached settings (fuel + 1) world name)
      (renderCached other (fuel + 1) mate name) := by
  have chains : mate.context.chainOf name = world.context.chainOf name := by
    rw [Context.chainOf, abreast.cache world mate twins, Context.chainOf]
  have marks : mate.context.isExpanding name = world.context.isExpanding name := by
    rw [Context.isExpanding, abreast.expanding world mate twins, Context.isExpanding]
  simp only [renderCached, chains, marks]
  cases isChain : world.context.chainOf name with
  | none => exact .some (.ok (abreast.same "") twins)
  | some chain =>
      cases marked : world.context.isExpanding name with
      | true => exact .some (.ok (abreast.same "") (abreast.note world mate _ twins))
      | false =>
          refine rel_bind (below.render _ _ (some chain) true
            (abreast.enters world mate name (some chain) twins)
            (here.tail (.pinned isChain marked))) ?_
          rintro _ _ _ (⟨goes, ends⟩ | ⟨fault, ends⟩)
          · exact .some (.ok goes (abreast.leaves _ _ name _ ends))
          · exact .some (.error fault (abreast.leaves _ _ name _ ends))

theorem call_abreast (world mate : World) (handler counterpart : Handler)
    (element : Option ElementId) (twins : twin world mate)
    (here : During settings origin ⟨fuel + 1, world, .call handler element⟩)
    (matching : handler.Matches alike counterpart) :
    Option.Rel (Paired (Reply.Matches agrees) twin)
      (call settings (fuel + 1) world handler element)
      (call other (fuel + 1) mate counterpart element) := by
  cases matching with
  | inert => exact .some (.error _ twins)
  | script each =>
      exact below.run world mate element _ _ "" "" twins (here.tail .script) each (abreast.same "")

theorem run_abreast (world mate : World) (element : Option ElementId)
    (actions counterparts : List Action) (output told : String) (twins : twin world mate)
    (here : During settings origin ⟨fuel + 1, world, .run element actions output⟩)
    (each : List.Forall₂ alike actions counterparts) (goes : agrees output told) :
    Option.Rel (Paired (Reply.Matches agrees) twin)
      (run settings (fuel + 1) world element actions output)
      (run other (fuel + 1) mate element counterparts told) := by
  cases each with
  | nil => exact .some (.ok (.text goes) twins)
  | @cons action counterpart rest others fits each =>
      have both := abreast.performs _ world mate element action counterpart rest output twins here
        fits
      simp only [run]
      cases performed : world.perform settings element action with
      | mk demand changed =>
          cases mirrored : mate.perform other element counterpart with
          | mk wish altered =>
              rw [performed, mirrored] at both
              cases both with
              | error trouble ends =>
                  cases trouble with
                  | fault fault =>
                      cases fault with
                      | endless => exact .none
                      | _ => exact .some (.error _ ends)
                  | _ => exact .some (.error _ ends)
              | ok matching ends =>
                  cases matching with
                  | add more =>
                      exact below.run changed altered element rest others _ _ ends
                        (here.tail (.added performed)) each (abreast.join _ _ _ _ goes more)
                  | finish reply => exact .some (.ok (.same reply) ends)
                  | render start toEnd =>
                      refine rel_bind (below.render changed altered start toEnd ends
                        (here.tail (.asked performed))) ?_
                      rintro _ _ rendered (⟨more, after⟩ | ⟨fault, after⟩)
                      · exact below.run _ _ element rest others _ _ after
                          (here.tail (.resumed performed rendered)) each
                          (abreast.join _ _ _ _ goes more)
                      · exact .some (.error _ after)

end Fueled

/-- Two evaluations that go side by side end alike. -/
theorem Abreast.through (fuel : Nat) :
    AbreastFor settings other origin twin agrees alike fuel := by
  induction fuel with
  | zero =>
      refine ⟨?_, ?_, ?_, ?_, ?_, ?_⟩ <;> intros <;> exact .none
  | succ fuel below =>
      exact ⟨render_abreast abreast below, renderFrom_abreast abreast below,
        renderOne_abreast abreast below, renderCached_abreast abreast below,
        call_abreast abreast below, run_abreast abreast below⟩

end Abreast

end World

end Stencil
