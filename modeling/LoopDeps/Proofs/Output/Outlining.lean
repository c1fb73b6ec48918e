import LoopDeps.Proofs.Output.Statements
set_option autoImplicit false

/- What a drawing tells of its graph, whatever the labels are. With the backslashes in it a label never closes its
   quotes too early, so that the attributes of a node tell its figure and its label, and two graphs have one drawing
   exactly when they have the same nodes to draw and the same edges. -/
namespace LoopDeps.Dot

open Output

-- What a node is drawn as.
inductive Figure where
  | external
  | chain
  | plain (category : Category) (numType : NumType)
deriving DecidableEq, Repr

namespace Figure

def all : List Figure :=
  [.external, .chain, .plain .compute .integer, .plain .compute .float, .plain .compute .vector,
    .plain .memory .integer, .plain .memory .float, .plain .memory .vector]

-- The attributes in front of the label, and those behind it.
def lead : Figure → String
  | .external => "shape=box,color=blue,"
  | .chain | .plain .. => ""

def trail : Figure → String
  | .external => ""
  | .chain => ", style=filled, fillcolor=lightgrey, shape=oval"
  | .plain category numType => ", shape=" ++ shape category numType

theorem mem_all (figure : Figure) : figure ∈ all := by
  rcases figure with _ | _ | ⟨category, numType⟩
  · decide
  · decide
  · cases category <;> cases numType <;> decide

theorem told_by_attributes (figure other : Figure) (front : figure.lead = other.lead) (back : figure.trail = other.trail) :
    figure = other := by
  have apart : ∀ first ∈ all, ∀ second ∈ all, first.lead = second.lead → first.trail = second.trail → first = second := by
    decide
  exact apart figure (mem_all figure) other (mem_all other) front back

end Figure

-- All that the declaration of a node shows of it.
structure Outline where
  id : NodeId
  figure : Figure
  label : String
deriving DecidableEq, Repr

def figureOf (n : Node) : Figure :=
  if n.isExternal then .external
  else if n.role.isSome then .chain
  else .plain n.category n.numType

def outlineOf (n : Node) : Outline := ⟨n.id, figureOf n, n.label⟩

-- What a text up to its closing quote stands for, and what is left behind the quote.
def unquoted : Text → Option (Text × Text)
  | [] => none
  | '"' :: rest => some ([], rest)
  | '\\' :: c :: rest => (unquoted rest).map fun (text, behind) => (c :: text, behind)
  | c :: rest => (unquoted rest).map fun (text, behind) => (c :: text, behind)

theorem unquoted_other (c : Char) (rest : Text) (noQuote : c ≠ '"') (noBackslash : c ≠ '\\') :
    unquoted (c :: rest) = (unquoted rest).map fun (text, behind) => (c :: text, behind) :=
  unquoted.eq_4 c rest noQuote fun _ _ same => absurd same noBackslash

theorem unquoted_escape (label : String) (rest : Text) :
    unquoted ((escape label).toList ++ '"' :: rest) = some (label.toList, rest) := by
  rw [escape, String.toList_ofList]
  induction label.toList with
  | nil => rfl
  | cons c more ih =>
      rw [List.flatMap_cons, List.append_assoc]
      by_cases special : c = '\\' ∨ c = '"'
      · rcases special with rfl | rfl <;> exact congrArg (Option.map _) ih
      · rw [not_or] at special
        have kept : (if c == '\\' || c == '"' then ['\\', c] else [c]) = [c] := by simp [special]
        rw [kept, List.singleton_append, unquoted_other c _ special.2 special.1, ih, Option.map_some]

theorem unquoted_digits (n : Nat) (rest : Text) :
    unquoted (digitsOf n ++ rest) = (unquoted rest).map fun (text, behind) => (digitsOf n ++ text, behind) := by
  have digits := digit_of_mem n
  revert digits
  induction digitsOf n with
  | nil => simp
  | cons c more ih =>
      intro digits
      have digit := digits c List.mem_cons_self
      have noQuote : c ≠ '"' := fun same => absurd (same ▸ digit) (by decide)
      have noBackslash : c ≠ '\\' := fun same => absurd (same ▸ digit) (by decide)
      rw [List.cons_append, unquoted_other c _ noQuote noBackslash,
        ih fun other member => digits other (List.mem_cons_of_mem _ member), Option.map_map]
      rfl

def labelText (n : Node) : String := "label=\"" ++ toString n.id ++ " " ++ escape n.label ++ "\""

theorem label_read (n : Node) (rest : Text) : (labelText n).toList ++ rest =
    "label=\"".toList ++ (digitsOf n.id ++ ' ' :: ((escape n.label).toList ++ '"' :: rest)) := by
  have blank : " ".toList = [' '] := rfl
  have quote : "\"".toList = ['"'] := rfl
  simp only [labelText, String.toList_append, List.append_assoc, blank, quote, digitsOf, List.cons_append,
    List.nil_append]

theorem attributes_eq (n : Node) : attributes n = (figureOf n).lead ++ labelText n ++ (figureOf n).trail := by
  rw [attributes, figureOf]
  by_cases box : n.isExternal = true
  · simp only [if_pos box, Figure.lead, Figure.trail, String.append_empty, labelText]
  · by_cases part : n.role.isSome = true
    · simp only [if_neg box, if_pos part, Figure.lead, Figure.trail, String.empty_append, labelText]
    · simp only [if_neg box, if_neg part, Figure.lead, Figure.trail, String.empty_append, String.append_assoc, labelText]

theorem attributes_read (n : Node) : (attributes n).toList = (figureOf n).lead.toList ++ ("label=\"".toList ++
    (digitsOf n.id ++ ' ' :: ((escape n.label).toList ++ '"' :: (figureOf n).trail.toList))) := by
  rw [attributes_eq, String.toList_append, String.toList_append, List.append_assoc, label_read]

-- Only the attributes of a box do not begin with the label.
theorem lead_told (figure other : Figure) (first second : Text)
    (same : figure.lead.toList ++ ("label=\"".toList ++ first) = other.lead.toList ++ ("label=\"".toList ++ second)) :
    figure.lead = other.lead := by
  cases figure <;> cases other <;> simp [Figure.lead] at same ⊢

theorem outline_told (n m : Node) (ids : n.id = m.id) (same : (attributes n).toList = (attributes m).toList) :
    outlineOf n = outlineOf m := by
  rw [attributes_read, attributes_read] at same
  have leads := lead_told _ _ _ _ same
  rw [leads, ids] at same
  have titles := congrArg unquoted (List.append_cancel_left (List.append_cancel_left same))
  simp only [unquoted_digits, unquoted_other ' ' _ (by decide) (by decide), unquoted_escape, Option.map_some,
    Option.some.injEq, Prod.mk.injEq, List.append_cancel_left_eq, List.cons.injEq, true_and, String.toList_inj] at titles
  obtain ⟨labels, trails⟩ := titles
  rw [outlineOf, outlineOf, ids, labels, Figure.told_by_attributes _ _ leads trails]

-- A declaration as its drawing has it.
def declared (n : Node) : NodeId × Text := (n.id, (attributes n).toList)

theorem declared_eq_iff (n m : Node) : declared n = declared m ↔ outlineOf n = outlineOf m := by
  constructor
  · intro same
    obtain ⟨ids, texts⟩ := Prod.mk.inj same
    exact outline_told n m ids texts
  · intro same
    obtain ⟨ids, figures, labels⟩ := Outline.mk.inj same
    rw [declared, declared, attributes_read, attributes_read, ids, figures, labels]

theorem declared_all_eq_iff (nodes others : List Node) :
    nodes.map declared = others.map declared ↔ nodes.map outlineOf = others.map outlineOf := by
  induction nodes generalizing others with
  | nil => cases others <;> simp
  | cons n rest ih =>
      cases others with
      | nil => simp
      | cons m more => simp only [List.map_cons, List.cons.injEq, declared_eq_iff, ih]

def links (g : Graph) : List (NodeId × NodeId × Dependence) := (shown g).map fun e => (e.source, e.target, e.kind)

namespace Statement

def declaration? : Statement → Option (NodeId × Text)
  | .node id text => some (id, text)
  | .edge .. => none

-- The line of a statement.
def text : Statement → Text
  | .node id attributes => digitsOf id ++ " [".toList ++ attributes ++ [']']
  | .edge source target kind =>
      digitsOf source ++ " -> ".toList ++ digitsOf target ++ " [".toList ++ (style kind).toList ++ [']']

end Statement

theorem declarations_of_drawn (g : Graph) :
    (drawn g).filterMap Statement.declaration? = g.nodes.values.map declared := by
  rw [drawn, List.filterMap_append, List.filterMap_map, List.filterMap_map]
  have edges : ∀ e ∈ shown g, (Statement.declaration? ∘ fun e => .edge e.source e.target e.kind) e = none :=
    fun _ _ => rfl
  rw [List.filterMap_eq_nil_iff.mpr edges, List.append_nil, ← List.filterMap_eq_map]
  rfl

theorem drawn_eq_iff (g h : Graph) : drawn g = drawn h ↔
    g.nodes.values.map outlineOf = h.nodes.values.map outlineOf ∧ links g = links h := by
  rw [← declared_all_eq_iff]
  constructor
  · intro same
    exact ⟨by rw [← declarations_of_drawn, same, declarations_of_drawn],
      by rw [links, ← edges_of_drawn, same, edges_of_drawn, links]⟩
  · rintro ⟨nodes, edges⟩
    have parts : ∀ graph, drawn graph = (graph.nodes.values.map declared).map (fun entry => .node entry.1 entry.2) ++
        (links graph).map fun link => .edge link.1 link.2.1 link.2.2 := by
      intro graph
      rw [drawn, links, List.map_map, List.map_map]
      rfl
    rw [parts, parts, nodes, edges]

theorem render_eq_iff (g h : Graph) : render g = render h ↔ drawn g = drawn h := by
  constructor
  · intro same
    have read := congrArg read? same
    rwa [read_render, read_render, Option.some_inj] at read
  · intro same
    have lines : ∀ graph, (render graph).toList =
        closed '\n' (opening :: (drawn graph).map Statement.text ++ [closing]) := by
      intro graph
      rw [render_closed, drawn, List.map_append, List.map_map, List.map_map]
      rfl
    rw [← String.toList_inj, lines, lines, same]

-- One drawing, the same nodes and the same edges, each in the same order.
theorem drawing_unambiguous (g h : Graph) : render g = render h ↔
    g.nodes.values.map outlineOf = h.nodes.values.map outlineOf ∧ links g = links h :=
  (render_eq_iff g h).trans (drawn_eq_iff g h)

end LoopDeps.Dot
