import LoopDeps.Graph.Construct
import LoopDeps.Proofs.Graph.Controlling
import LoopDeps.Proofs.Graph.CycleBreaking
import LoopDeps.Proofs.Graph.Supplying
import LoopDeps.Proofs.Graph.Unfolding
set_option autoImplicit false

/- The stages a graph goes through. It is well-formed after each of them, and also where a stage gives up. -/
namespace LoopDeps

namespace Backedges

theorem annotate_well_formed (g : Graph) (s : Search) (well : g.WellFormed) : (annotate g s).WellFormed := by
  refine Graph.well_formed_of_changes g (annotate g s) (fun _ n => noted g s n)
    (fun e => { e with backedge := s.marked.contains e.id }) well (get_annotate_node g s)
    (fun id => Table.get_map _ g.edges id) (fun _ _ => rfl) (fun _ n side => ?_) (fun _ => rfl) (fun e side => ?_)
    rfl rfl rfl rfl
  · cases side <;> rfl
  · cases side <;> rfl

end Backedges

namespace Graph

def stages (body : Body) (pdom : ControlLinks.PostDominates) : List (Edit Bool) :=
  [DataLinks.pass body, ControlLinks.pass body pdom, AddressChains.pass body, Backedges.pass]

-- The graph before the first stage and after each one, up to the first that fails.
def graphsOf : List (Edit Bool) → Graph → List Graph
  | [], g => [g]
  | stage :: rest, g =>
      g :: match stage.run g with
        | .ok _ next => graphsOf rest next
        | .error _ next => [next]

-- Every graph on the way from a body to its finished graph, or to where the passes give up.
def history (body : Body) (pdom : ControlLinks.PostDominates) : List Graph :=
  match ofBody body with
  | .error _ => []
  | .ok g => graphsOf (stages body pdom) g

theorem history_of_body (body : Body) (pdom : ControlLinks.PostDominates) (start : Graph)
    (built : ofBody body = .ok start) : history body pdom = graphsOf (stages body pdom) start := by
  rw [history, built]

-- All four stages succeed on the way from `start` to `finished`.
structure Completed (body : Body) (pdom : ControlLinks.PostDominates) (start linked controlled middle finished : Graph) :
    Prop where
  supplied : DataLinks.Supplied body.func start body.dataOperands body.dataOperands.length linked
  added : Controlled linked controlled
  narrow : ∀ branch ∈ body.blocks, ∀ block, ¬ControlLinks.Wide body branch block
  unfolded : AddressChains.Unfolded controlled (AddressChains.staged body.func controlled) middle
  last : finished = Backedges.annotate (AddressChains.withoutStaged body.func controlled middle)
    (Backedges.search (AddressChains.withoutStaged body.func controlled middle))
  ran : (passes body pdom).run start = .ok () finished
  graphs : graphsOf (stages body pdom) start =
    [start, linked, controlled, AddressChains.withoutStaged body.func controlled middle, finished]

-- The second stage gives up, and leaves `controlled`.
structure GivenUp (body : Body) (pdom : ControlLinks.PostDominates) (start linked controlled : Graph)
    (error : LoopError) : Prop where
  supplied : DataLinks.Supplied body.func start body.dataOperands body.dataOperands.length linked
  added : Controlled linked controlled
  cause : ControlLinks.Covered body linked → ControlLinks.Ended body →
    ∃ block, ControlLinks.FirstWide body body.blocks block ∧
      error = .wideBranch body.loopId block.label block.succ.length
  ran : (passes body pdom).run start = .error error controlled
  graphs : graphsOf (stages body pdom) start = [start, linked, controlled]

theorem expanded_well_formed (body : Body) (linked controlled middle : Graph) (well : linked.WellFormed)
    (added : Controlled linked controlled)
    (unfolded : AddressChains.Unfolded controlled (AddressChains.staged body.func controlled) middle) :
    (AddressChains.withoutStaged body.func controlled middle).WellFormed :=
  (AddressChains.unfolded_removed body.func controlled middle
    (ControlLinks.controlled_well_formed linked controlled well added) unfolded).1

theorem stages_cases (body : Body) (pdom : ControlLinks.PostDominates) (start : Graph)
    (built : ofBody body = .ok start) :
    (∃ linked controlled middle finished, Completed body pdom start linked controlled middle finished) ∨
      ∃ linked controlled error, GivenUp body pdom start linked controlled error := by
  obtain ⟨linked, linkRan, supplied⟩ := DataLinks.pass_supplies body start (of_body_placed body start built)
  have leads := ControlLinks.pass_leads body pdom linked supplied.well
  unfold Edit.Leads at leads
  cases controlRan : (ControlLinks.pass body pdom).run linked with
  | ok changed controlled =>
      rw [controlRan] at leads
      obtain ⟨added, narrow⟩ := leads
      obtain ⟨middle, expandRan, unfolded⟩ := AddressChains.pass_unfolds body controlled
        (ControlLinks.controlled_well_formed linked controlled supplied.well added)
      have breakRan := Backedges.pass_run (AddressChains.withoutStaged body.func controlled middle)
        (expanded_well_formed body linked controlled middle supplied.well added unfolded).mirrored
      refine Or.inl ⟨linked, controlled, middle, _, supplied, added, narrow, unfolded, rfl, ?_, ?_⟩
      · rw [passes, Edit.run_bind_ok _ _ start linked _ linkRan, Edit.run_bind_ok _ _ linked controlled _ controlRan,
          Edit.run_bind_ok _ _ controlled _ _ expandRan, Edit.run_bind_ok _ _ _ _ _ breakRan, EStateM.run_pure]
      · simp only [stages, graphsOf, linkRan, controlRan, expandRan, breakRan]
  | error error controlled =>
      rw [controlRan] at leads
      refine Or.inr ⟨linked, controlled, error, supplied, leads.1, leads.2, ?_, ?_⟩
      · rw [passes, Edit.run_bind_ok _ _ start linked _ linkRan,
          Edit.run_bind_error _ _ linked controlled error controlRan]
      · simp only [stages, graphsOf, linkRan, controlRan]

theorem completed_well_formed (body : Body) (pdom : ControlLinks.PostDominates)
    (start linked controlled middle finished : Graph) (well : start.WellFormed)
    (completed : Completed body pdom start linked controlled middle finished) :
    ∀ g ∈ graphsOf (stages body pdom) start, g.WellFormed := by
  have wellLinked := completed.supplied.well
  have wellControlled := ControlLinks.controlled_well_formed linked controlled wellLinked completed.added
  have wellExpanded := expanded_well_formed body linked controlled middle wellLinked completed.added
    completed.unfolded
  have wellFinished : finished.WellFormed :=
    completed.last ▸ Backedges.annotate_well_formed _ _ wellExpanded
  rw [completed.graphs]
  simpa using ⟨well, wellLinked, wellControlled, wellExpanded, wellFinished⟩

theorem given_up_well_formed (body : Body) (pdom : ControlLinks.PostDominates) (start linked controlled : Graph)
    (error : LoopError) (well : start.WellFormed) (givenUp : GivenUp body pdom start linked controlled error) :
    ∀ g ∈ graphsOf (stages body pdom) start, g.WellFormed := by
  have wellControlled :=
    ControlLinks.controlled_well_formed linked controlled givenUp.supplied.well givenUp.added
  rw [givenUp.graphs]
  simpa using ⟨well, givenUp.supplied.well, wellControlled⟩

theorem construct_ok (body : Body) (pdom : ControlLinks.PostDominates) (finished : Graph)
    (built : construct body pdom = .ok finished) :
    ∃ start, ofBody body = .ok start ∧ (passes body pdom).run start = .ok () finished := by
  unfold construct at built
  split at built
  · cases built
  · rename_i start placed
    split at built
    · rename_i ran
      cases built
      exact ⟨start, placed, ran⟩
    · cases built

theorem construct_completed (body : Body) (pdom : ControlLinks.PostDominates) (finished : Graph)
    (built : construct body pdom = .ok finished) :
    ∃ start linked controlled middle, ofBody body = .ok start ∧
      Completed body pdom start linked controlled middle finished := by
  obtain ⟨start, started, ran⟩ := construct_ok body pdom finished built
  rcases stages_cases body pdom start started with
    ⟨linked, controlled, middle, last, completed⟩ | ⟨linked, controlled, error, givenUp⟩
  · cases completed.ran.symm.trans ran
    exact ⟨start, linked, controlled, middle, started, completed⟩
  · cases givenUp.ran.symm.trans ran

-- Every graph on the way is well-formed, the one that a failing stage leaves included.
theorem well_formed_throughout (body : Body) (pdom : ControlLinks.PostDominates) :
    (∀ g ∈ history body pdom, g.WellFormed) ∧
      (∀ finished, construct body pdom = .ok finished →
        (history body pdom).length = 5 ∧ (history body pdom).getLast? = some finished) ∧
      ∀ start error left, ofBody body = .ok start → (passes body pdom).run start = .error error left →
        (history body pdom).head? = some start ∧ (history body pdom).getLast? = some left := by
  refine ⟨?_, ?_, ?_⟩
  · unfold history
    cases built : ofBody body with
    | error _ => exact fun _ member => nomatch member
    | ok start =>
        have well := (of_body_placed body start built).well
        rcases stages_cases body pdom start built with
          ⟨linked, controlled, middle, finished, completed⟩ | ⟨linked, controlled, error, givenUp⟩
        · exact completed_well_formed body pdom start linked controlled middle finished well completed
        · exact given_up_well_formed body pdom start linked controlled error well givenUp
  · intro finished done
    obtain ⟨start, built, ran⟩ := construct_ok body pdom finished done
    rw [history_of_body body pdom start built]
    rcases stages_cases body pdom start built with
      ⟨linked, controlled, middle, last, completed⟩ | ⟨linked, controlled, error, givenUp⟩
    · cases completed.ran.symm.trans ran
      rw [completed.graphs]
      exact ⟨rfl, rfl⟩
    · cases givenUp.ran.symm.trans ran
  · intro start error left built ran
    rw [history_of_body body pdom start built]
    rcases stages_cases body pdom start built with
      ⟨linked, controlled, middle, last, completed⟩ | ⟨linked, controlled, error, givenUp⟩
    · cases completed.ran.symm.trans ran
    · cases givenUp.ran.symm.trans ran
      rw [givenUp.graphs]
      exact ⟨rfl, rfl⟩

end Graph

end LoopDeps
