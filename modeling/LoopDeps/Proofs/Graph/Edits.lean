import LoopDeps.Proofs.Graph.Inserting
set_option autoImplicit false

/- The edits run: on a graph that has what they look for, each of them succeeds and makes its change. -/
namespace LoopDeps.Edit

theorem run_bind_ok {α β : Type} (first : Edit α) (rest : α → Edit β) (g next : Graph) (value : α)
    (ran : first.run g = .ok value next) : (first >>= rest).run g = (rest value).run next := by
  rw [EStateM.run_bind, ran]

theorem run_bind_error {α β : Type} (first : Edit α) (rest : α → Edit β) (g next : Graph)
    (error : LoopError) (ran : first.run g = .error error next) :
    (first >>= rest).run g = .error error next := by
  rw [EStateM.run_bind, ran]

-- A loop whose steps all succeed. `holds` is told which items are done.
theorem run_for_each {α : Type} (items : List α) (body : α → Edit Unit) (holds : List α → Graph → Prop)
    (step : ∀ done item rest g, items = done ++ item :: rest → holds done g →
      ∃ next, (body item).run g = .ok () next ∧ holds (done ++ [item]) next)
    (g : Graph) (start : holds [] g) : ∃ next, (items.forM body).run g = .ok () next ∧ holds items next := by
  suffices loop : ∀ done rest g, items = done ++ rest → holds done g →
      ∃ next, (rest.forM body).run g = .ok () next ∧ holds items next from loop [] items g rfl start
  intro done rest
  induction rest generalizing done with
  | nil =>
      intro g split held
      exact ⟨g, rfl, by rwa [split, List.append_nil]⟩
  | cons item rest ih =>
      intro g split held
      obtain ⟨middle, ran, after⟩ := step done item rest g split held
      obtain ⟨next, finished, final⟩ := ih (done ++ [item]) middle (by simp [split]) after
      exact ⟨next, (run_bind_ok _ _ g middle () ran).trans finished, final⟩

-- What holds after a run, whether it succeeds or fails.
def Leads {α : Type} (edit : Edit α) (g : Graph) (good : α → Graph → Prop) (bad : LoopError → Graph → Prop) :
    Prop :=
  match edit.run g with
  | .ok value next => good value next
  | .error error next => bad error next

theorem leads_of_ok {α : Type} (edit : Edit α) (g next : Graph) (value : α) {good : α → Graph → Prop}
    {bad : LoopError → Graph → Prop} (ran : edit.run g = .ok value next) (holds : good value next) :
    edit.Leads g good bad := by
  simpa only [Leads, ran] using holds

theorem leads_of_error {α : Type} (edit : Edit α) (g next : Graph) (error : LoopError)
    {good : α → Graph → Prop} {bad : LoopError → Graph → Prop} (ran : edit.run g = .error error next)
    (holds : bad error next) : edit.Leads g good bad := by
  simpa only [Leads, ran] using holds

theorem of_leads {α : Type} (edit : Edit α) (g next : Graph) (value : α) {good : α → Graph → Prop}
    {bad : LoopError → Graph → Prop} (leads : edit.Leads g good bad) (ran : edit.run g = .ok value next) :
    good value next := by
  simpa only [Leads, ran] using leads

theorem leads_weaken {α : Type} (edit : Edit α) (g : Graph) {good better : α → Graph → Prop}
    {bad worse : LoopError → Graph → Prop} (leads : edit.Leads g better worse)
    (onOk : ∀ value next, better value next → good value next)
    (onError : ∀ error next, worse error next → bad error next) : edit.Leads g good bad := by
  unfold Leads at leads ⊢
  cases ran : edit.run g with
  | ok value next =>
      rw [ran] at leads
      exact onOk value next leads
  | error error next =>
      rw [ran] at leads
      exact onError error next leads

theorem leads_bind {α β : Type} (first : Edit α) (rest : α → Edit β) (g : Graph)
    {middle : α → Graph → Prop} {good : β → Graph → Prop} {failed bad : LoopError → Graph → Prop}
    (here : first.Leads g middle failed) (weaker : ∀ error next, failed error next → bad error next)
    (later : ∀ value next, middle value next → (rest value).Leads next good bad) :
    (first >>= rest).Leads g good bad := by
  unfold Leads at here ⊢
  cases ran : first.run g with
  | ok value next =>
      rw [run_bind_ok first rest g next value ran]
      rw [ran] at here
      exact later value next here
  | error error next =>
      rw [run_bind_error first rest g next error ran]
      rw [ran] at here
      exact weaker error next here

theorem leads_after {α β : Type} (first : Edit α) (rest : α → Edit β) (g next : Graph) (value : α)
    (ran : first.run g = .ok value next) {good : β → Graph → Prop} {bad : LoopError → Graph → Prop}
    (later : (rest value).Leads next good bad) : (first >>= rest).Leads g good bad := by
  unfold Leads at later ⊢
  rwa [run_bind_ok first rest g next value ran]

-- Where nothing is said of failures.
theorem leads_then {α β : Type} (first : Edit α) (rest : α → Edit β) (g : Graph) {middle : α → Graph → Prop}
    {good : β → Graph → Prop} (here : first.Leads g middle fun _ _ => True)
    (later : ∀ value next, middle value next → (rest value).Leads next good fun _ _ => True) :
    (first >>= rest).Leads g good fun _ _ => True := leads_bind first rest g here (fun _ _ _ => trivial) later

theorem leads_get {β : Type} (rest : Graph → Edit β) (g : Graph) {good : β → Graph → Prop}
    {bad : LoopError → Graph → Prop} (later : (rest g).Leads g good bad) :
    (get >>= rest : Edit β).Leads g good bad := later

-- A loop that keeps `holds` as long as its steps succeed.
theorem leads_fold {α β : Type} (items : List α) (body : β → α → Edit β) (holds : Graph → Prop)
    (bad : LoopError → Graph → Prop)
    (step : ∀ item ∈ items, ∀ state g, holds g → (body state item).Leads g (fun _ next => holds next) bad)
    (state : β) (g : Graph) (start : holds g) :
    (items.foldlM body state).Leads g (fun _ next => holds next) bad := by
  induction items generalizing state g with
  | nil => exact start
  | cons item rest ih =>
      rw [List.foldlM_cons]
      refine leads_bind _ _ g (step item List.mem_cons_self state g start) (fun _ _ failed => failed) ?_
      exact fun value next held =>
        ih (fun other member => step other (List.mem_cons_of_mem _ member)) value next held

-- A loop whose invariant is told which items are done.
theorem leads_fold_along {α β : Type} (items : List α) (body : β → α → Edit β) (holds : List α → β → Graph → Prop)
    (step : ∀ done item rest, items = done ++ item :: rest → ∀ state g, holds done state g →
      (body state item).Leads g (fun after next => holds (done ++ [item]) after next) fun _ _ => True)
    (state : β) (g : Graph) (start : holds [] state g) :
    (items.foldlM body state).Leads g (fun after next => holds items after next) fun _ _ => True := by
  suffices loop : ∀ done rest state g, items = done ++ rest → holds done state g →
      (rest.foldlM body state).Leads g (fun after next => holds items after next) fun _ _ => True from
    loop [] items state g rfl start
  intro done rest
  induction rest generalizing done with
  | nil =>
      intro state g split held
      rw [List.append_nil] at split
      exact split ▸ held
  | cons item rest ih =>
      intro state g split held
      rw [List.foldlM_cons]
      refine leads_then _ _ g (step done item rest split state g held) fun after next later => ?_
      exact ih (done ++ [item]) after next (by simp [split]) later

theorem leads_for_each {α : Type} (items : List α) (body : α → Edit Unit) (holds : Graph → Prop)
    (step : ∀ item ∈ items, ∀ g, holds g → (body item).Leads g (fun _ next => holds next) fun _ _ => True)
    (g : Graph) (start : holds g) : (items.forM body).Leads g (fun _ next => holds next) fun _ _ => True := by
  induction items generalizing g with
  | nil => exact start
  | cons item rest ih =>
      refine leads_then (body item) _ g (step item List.mem_cons_self g start) ?_
      exact fun _ next held => ih (fun other member => step other (List.mem_cons_of_mem _ member)) next held

theorem missing_run {α : Type} (what : Missing) (g : Graph) :
    (missing what : Edit α).run g = .error (.missing g.loopId what) g := rfl

theorem get_node_run (id : NodeId) (g : Graph) (n : Node) (found : g.nodes.get? id = some n) :
    (getNode id).run g = .ok n g := by
  simp only [getNode, EStateM.run_bind, EStateM.run_get, found, EStateM.run_pure]

theorem get_edge_run (id : EdgeId) (g : Graph) (e : Edge) (found : g.edges.get? id = some e) :
    (getEdge id).run g = .ok e g := by
  simp only [getEdge, EStateM.run_bind, EStateM.run_get, found, EStateM.run_pure]

theorem change_node_run (id : NodeId) (f : Node → Node) (g : Graph)
    (found : ∃ n, g.nodes.get? id = some n) :
    (changeNode id f).run g = .ok () (g.modifyNode id f) := by
  obtain ⟨n, node⟩ := found
  simp only [changeNode, EStateM.run_bind, get_node_run id g n node, EStateM.run_modify]

theorem new_node_id_run (g : Graph) : newNodeId.run g = .ok (g.lastNode + 1) g.withFresh := by
  simp only [newNodeId, EStateM.run_bind, EStateM.run_get, EStateM.run_modify, EStateM.run_pure]
  rfl

theorem add_edge_run (source target : NodeId) (kind : Dependence) (weight : Float) (g : Graph)
    (sourceNode : ∃ n, g.nodes.get? source = some n) (targetNode : ∃ n, g.nodes.get? target = some n) :
    (addEdge source target kind weight).run g =
      .ok (g.lastEdge + 1) (attach g source target kind weight) := by
  have here := Table.contains_iff.mpr sourceNode
  have there := Table.contains_iff.mpr targetNode
  simp only [addEdge, EStateM.run_bind, EStateM.run_get, here, there, Bool.not_true, Bool.false_eq_true,
    if_false, EStateM.run_set, EStateM.run_pure]

def moveEnd (side : End) (id : EdgeId) (other : NodeId) : Edit Unit :=
  match side with
  | .source => moveSource id other
  | .target => moveTarget id other

-- Both moves look for the edge, for its old end and for its new one.
theorem move_end_steps (side : End) (id : EdgeId) (other : NodeId) :
    moveEnd side id other = (do
      let e ← getEdge id
      changeNode (e.endAt side) fun n => n.relisted ((n.listing side).filter (· != id)) side
      changeNode other fun n => n.relisted (n.listing side ++ [id]) side
      modify fun g => { g with edges := g.edges.modify id fun e => e.moved other side }) := by
  cases side <;> rfl

theorem unhook_run (side : End) (id : EdgeId) (key : NodeId) (g : Graph) (found : ∃ n, g.nodes.get? key = some n) :
    (changeNode key fun n => n.relisted ((n.listing side).filter (· != id)) side).run g =
      .ok () (g.unhooked side id key) := change_node_run key _ g found

theorem move_end_run (side : End) (id : EdgeId) (other : NodeId) (g : Graph) (e : Edge)
    (found : g.edges.get? id = some e) (oldNode : ∃ n, g.nodes.get? (e.endAt side) = some n)
    (otherNode : ∃ n, g.nodes.get? other = some n) :
    (moveEnd side id other).run g = .ok () (g.withEnd side id (e.endAt side) other) := by
  obtain ⟨m, present⟩ := otherNode
  have still : ∃ m, (g.unhooked side id (e.endAt side)).nodes.get? other = some m :=
    ⟨_, by rw [Graph.get_unhooked, present]; rfl⟩
  rw [move_end_steps, run_bind_ok _ _ g g e (get_edge_run id g e found),
    run_bind_ok _ _ g _ () (unhook_run side id _ g oldNode),
    run_bind_ok _ _ _ _ () (change_node_run other _ _ still), EStateM.run_modify]
  rfl

theorem move_source_run (id : EdgeId) (other : NodeId) (g : Graph) (e : Edge) (mirrored : g.Mirrored)
    (found : g.edges.get? id = some e) (otherNode : ∃ n, g.nodes.get? other = some n) :
    (moveSource id other).run g = .ok () (g.withEnd .source id (e.endAt .source) other) := by
  obtain ⟨n, node, _⟩ := mirrored.listed .source id e found
  exact move_end_run .source id other g e found ⟨n, node⟩ otherNode

theorem move_target_run (id : EdgeId) (other : NodeId) (g : Graph) (e : Edge) (mirrored : g.Mirrored)
    (found : g.edges.get? id = some e) (otherNode : ∃ n, g.nodes.get? other = some n) :
    (moveTarget id other).run g = .ok () (g.withEnd .target id (e.endAt .target) other) := by
  obtain ⟨n, node, _⟩ := mirrored.listed .target id e found
  exact move_end_run .target id other g e found ⟨n, node⟩ otherNode

-- What an edit that succeeds was given, whatever the graph it ran on.
theorem get_node_leads (id : NodeId) (g : Graph) :
    (getNode id).Leads g (fun n next => next = g ∧ g.nodes.get? id = some n) fun _ _ => True := by
  unfold getNode
  apply leads_get
  cases found : g.nodes.get? id with
  | none => trivial
  | some n => exact ⟨rfl, rfl⟩

theorem get_edge_leads (id : EdgeId) (g : Graph) :
    (getEdge id).Leads g (fun e next => next = g ∧ g.edges.get? id = some e) fun _ _ => True := by
  unfold getEdge
  apply leads_get
  cases found : g.edges.get? id with
  | none => trivial
  | some e => exact ⟨rfl, rfl⟩

theorem change_node_leads (id : NodeId) (f : Node → Node) (g : Graph) :
    (changeNode id f).Leads g (fun _ next => next = g.modifyNode id f) fun _ _ => True := by
  apply leads_then _ _ g (get_node_leads id g)
  rintro n next ⟨rfl, found⟩
  rfl

theorem add_edge_leads (source target : NodeId) (kind : Dependence) (weight : Float) (g : Graph) :
    (addEdge source target kind weight).Leads g
      (fun _ next => (∃ n, g.nodes.get? source = some n) ∧ (∃ n, g.nodes.get? target = some n) ∧
        next = attach g source target kind weight)
      fun _ _ => True := by
  unfold addEdge
  apply leads_get
  by_cases noSource : (!g.nodes.contains source) = true
  · rw [if_pos noSource]
    trivial
  rw [if_neg noSource]
  by_cases noTarget : (!g.nodes.contains target) = true
  · rw [if_pos noTarget]
    trivial
  rw [if_neg noTarget]
  simp only [Bool.not_eq_true', Bool.not_eq_false] at noSource noTarget
  exact ⟨Table.contains_iff.mp noSource, Table.contains_iff.mp noTarget, rfl⟩

theorem move_end_leads (side : End) (id : EdgeId) (other : NodeId) (g : Graph) :
    (moveEnd side id other).Leads g
      (fun _ next => ∃ e, g.edges.get? id = some e ∧ next = g.withEnd side id (e.endAt side) other)
      fun _ _ => True := by
  rw [move_end_steps]
  apply leads_then _ _ g (get_edge_leads id g)
  rintro e _ ⟨rfl, found⟩
  apply leads_then _ _ _ (change_node_leads (e.endAt side) _ _)
  rintro _ _ rfl
  apply leads_then _ _ _ (change_node_leads other _ _)
  rintro _ _ rfl
  exact ⟨e, found, rfl⟩

theorem move_source_leads (id : EdgeId) (other : NodeId) (g : Graph) :
    (moveSource id other).Leads g
      (fun _ next => ∃ e, g.edges.get? id = some e ∧ next = g.withEnd .source id e.source other)
      fun _ _ => True := move_end_leads .source id other g

theorem move_target_leads (id : EdgeId) (other : NodeId) (g : Graph) :
    (moveTarget id other).Leads g
      (fun _ next => ∃ e, g.edges.get? id = some e ∧ next = g.withEnd .target id e.target other)
      fun _ _ => True := move_end_leads .target id other g

end LoopDeps.Edit
