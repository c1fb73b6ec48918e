import LoopDeps.Graph.Dot
import LoopDeps.Proofs.Graph.Marking
import LoopDeps.Proofs.Output.Fields
set_option autoImplicit false

/- The drawing of a graph, read back statement by statement. A label can hold a line end, so that a statement ends at
   a line end outside of quotes only. -/
namespace LoopDeps

namespace Output

-- Where a character stands: outside of quotes, between them, or behind a backslash between them.
inductive Scan where
  | plain
  | quoted
  | escaped
deriving DecidableEq, Repr

namespace Scan

def next : Scan → Char → Scan
  | .plain, c => if c = '"' then .quoted else .plain
  | .quoted, c => if c = '\\' then .escaped else if c = '"' then .plain else .quoted
  | .escaped, _ => .quoted

-- The place behind a text without a line end that would count.
def through : Scan → Text → Option Scan
  | state, [] => some state
  | state, c :: rest => if state = .plain ∧ c = '\n' then none else (state.next c).through rest

end Scan

-- What came before on a line is `line`.
def cut : Scan → Text → Text → List Text
  | _, line, [] => [line]
  | state, line, c :: rest =>
      if state = .plain ∧ c = '\n' then line :: cut .plain [] rest else cut (state.next c) (line ++ [c]) rest

def statementLines (text : Text) : List Text := cut .plain [] text

theorem through_append (state : Scan) (first second : Text) :
    state.through (first ++ second) = (state.through first).bind fun middle => middle.through second := by
  induction first generalizing state with
  | nil => rfl
  | cons c rest ih =>
      rw [List.cons_append, Scan.through, Scan.through]
      split
      · rfl
      · exact ih _

theorem through_joined (state middle last : Scan) (first second : Text) (here : state.through first = some middle)
    (later : middle.through second = some last) : state.through (first ++ second) = some last := by
  rw [through_append, here, Option.bind_some, later]

theorem cut_through (state last : Scan) (line part rest : Text) (through : state.through part = some last) :
    cut state line (part ++ rest) = cut last (line ++ part) rest := by
  induction part generalizing state line with
  | nil =>
      cases through
      rw [List.append_nil, List.nil_append]
  | cons c more ih =>
      rw [Scan.through] at through
      rw [List.cons_append, cut]
      split at through
      · cases through
      · rename_i inside
        rw [if_neg inside, ih _ _ through, List.append_assoc, List.singleton_append]

theorem lines_of_closed (lines : List Text) (whole : ∀ line ∈ lines, Scan.plain.through line = some .plain) :
    statementLines (closed '\n' lines) = lines ++ [[]] := by
  induction lines with
  | nil => rfl
  | cons line rest ih =>
      have later := ih fun other member => whole other (List.mem_cons_of_mem _ member)
      rw [statementLines, closed_cons, cut_through _ _ _ _ _ (whole line List.mem_cons_self), cut, if_pos ⟨rfl, rfl⟩]
      exact congrArg (line :: ·) later

theorem through_unquoted (text : Text) (free : ∀ c ∈ text, c ≠ '"' ∧ c ≠ '\n') :
    Scan.plain.through text = some .plain := by
  induction text with
  | nil => rfl
  | cons c rest ih =>
      obtain ⟨noQuote, noEnd⟩ := free c List.mem_cons_self
      rw [Scan.through, if_neg (fun both => noEnd both.2), Scan.next, if_neg noQuote]
      exact ih fun other member => free other (List.mem_cons_of_mem _ member)

theorem through_digits (n : Nat) : Scan.plain.through (digitsOf n) = some .plain := by
  refine through_unquoted _ fun c member => ?_
  have digit := digit_of_mem n c member
  constructor
  · rintro rfl
    exact absurd digit (by decide)
  · rintro rfl
    exact absurd digit (by decide)

-- Between quotes only a quote or a backslash is more than itself.
theorem through_inside (text : Text) (free : ∀ c ∈ text, c ≠ '"' ∧ c ≠ '\\') :
    Scan.quoted.through text = some .quoted := by
  induction text with
  | nil => rfl
  | cons c rest ih =>
      obtain ⟨noQuote, noBackslash⟩ := free c List.mem_cons_self
      rw [Scan.through, if_neg (by simp), Scan.next, if_neg noBackslash, if_neg noQuote]
      exact ih fun other member => free other (List.mem_cons_of_mem _ member)

-- Digits that nothing goes on are told from what follows them.
theorem digits_until (n : Nat) (c : Char) (rest : Text) (other : c.isDigit = false) :
    (digitsOf n ++ c :: rest).takeWhile Char.isDigit = digitsOf n ∧
      (digitsOf n ++ c :: rest).dropWhile Char.isDigit = c :: rest := by
  rw [List.takeWhile_append_of_pos (digit_of_mem n), List.dropWhile_append_of_pos (digit_of_mem n),
    List.takeWhile_cons, List.dropWhile_cons, other]
  simp

end Output

namespace Dot

open Output

inductive Statement where
  | node (id : NodeId) (attributes : Text)
  | edge (source target : NodeId) (kind : Dependence)
deriving DecidableEq, Repr

namespace Statement

def edge? : Statement → Option (NodeId × NodeId × Dependence)
  | .node _ _ => none
  | .edge source target kind => some (source, target, kind)

end Statement

def kindOf? (attributes : Text) : Option Dependence :=
  [Dependence.data, .control true, .control false].find? fun kind => (style kind).toList ++ [']'] == attributes

-- A number, and then an arrow with a second one or at once the attributes.
def statement? (line : Text) : Option Statement :=
  let rest := line.dropWhile Char.isDigit
  match number? (line.takeWhile Char.isDigit), " -> ".toList.isPrefixOf? rest, " [".toList.isPrefixOf? rest with
  | some source, some more, _ =>
      match number? (more.takeWhile Char.isDigit), " [".toList.isPrefixOf? (more.dropWhile Char.isDigit) with
      | some target, some attributes => (kindOf? attributes).map (.edge source target)
      | _, _ => none
  | some id, none, some attributes =>
      if attributes.getLast? = some ']' then some (.node id attributes.dropLast) else none
  | _, _, _ => none

def opening : Text := "digraph loop_analysis_graph \x7b".toList

def closing : Text := "\x7d".toList

def read? (text : String) : Option (List Statement) :=
  match statementLines text.toList with
  | first :: rest =>
      match rest.reverse with
      | [] :: last :: body => if first = opening ∧ last = closing then body.reverse.mapM statement? else none
      | _ => none
  | [] => none

-- The edges that a drawing shows.
def edges (statements : List Statement) : List (NodeId × NodeId × Dependence) := statements.filterMap Statement.edge?

theorem through_escape (label : String) : Scan.quoted.through (escape label).toList = some .quoted := by
  rw [escape, String.toList_ofList]
  induction label.toList with
  | nil => rfl
  | cons c rest ih =>
      rw [List.flatMap_cons]
      refine through_joined _ .quoted _ _ _ ?_ ih
      by_cases special : c = '\\' ∨ c = '"'
      · rcases special with rfl | rfl <;> rfl
      · rw [not_or] at special
        have kept : (if c == '\\' || c == '"' then ['\\', c] else [c]) = [c] := by simp [special]
        rw [kept, Scan.through, if_neg (by simp), Scan.next, if_neg special.1, if_neg special.2]
        rfl

def nodeText (n : Node) : Text := digitsOf n.id ++ " [".toList ++ (attributes n).toList ++ [']']

def edgeText (e : Edge) : Text :=
  digitsOf e.source ++ " -> ".toList ++ digitsOf e.target ++ " [".toList ++ (style e.kind).toList ++ [']']

theorem node_line_text (n : Node) : (nodeLine n).toList = nodeText n ++ ['\n'] := by
  simp [nodeLine, nodeText, digitsOf]

theorem edge_line_text (e : Edge) : (edgeLine e).toList = edgeText e ++ ['\n'] := by
  simp [edgeLine, edgeText, digitsOf]

theorem through_label (n : Node) :
    Scan.plain.through ("label=\"" ++ toString n.id ++ " " ++ escape n.label ++ "\"").toList = some .plain := by
  have number : Scan.quoted.through (toString n.id).toList = some .quoted := by
    refine through_inside _ fun c member => ?_
    have digit := digit_of_mem n.id c member
    constructor
    · rintro rfl
      exact absurd digit (by decide)
    · rintro rfl
      exact absurd digit (by decide)
  simp only [String.toList_append]
  have opened := through_joined .plain .quoted .quoted "label=\"".toList _ rfl number
  have spaced := through_joined .plain .quoted .quoted _ " ".toList opened rfl
  exact through_joined _ .quoted _ _ _ (through_joined _ .quoted _ _ _ spaced (through_escape n.label)) rfl

theorem through_shape (n : Node) : Scan.plain.through (shape n.category n.numType).toList = some .plain := by
  cases n.category <;> cases n.numType <;> rfl

theorem through_attributes (n : Node) : Scan.plain.through (attributes n).toList = some .plain := by
  have label := through_label n
  rw [attributes]
  split
  · rw [String.toList_append]
    exact through_joined _ .plain _ _ _ rfl label
  · split
    · rw [String.toList_append]
      exact through_joined _ .plain _ _ _ label rfl
    · rw [String.toList_append, String.toList_append]
      exact through_joined _ .plain _ _ _ (through_joined _ .plain _ _ _ label rfl) (through_shape n)

theorem through_node_text (n : Node) : Scan.plain.through (nodeText n) = some .plain := by
  have front := through_joined .plain .plain .plain _ " [".toList (through_digits n.id) rfl
  exact through_joined _ .plain _ _ _ (through_joined _ .plain _ _ _ front (through_attributes n)) rfl

theorem through_edge_text (e : Edge) : Scan.plain.through (edgeText e) = some .plain := by
  have styled : Scan.plain.through (style e.kind).toList = some .plain := by
    cases e.kind with
    | data => rfl
    | control arm => cases arm <;> rfl
  have source := through_joined .plain .plain .plain _ " -> ".toList (through_digits e.source) rfl
  have target := through_joined .plain .plain .plain _ " [".toList
    (through_joined _ .plain _ _ _ source (through_digits e.target)) rfl
  exact through_joined _ .plain _ _ _ (through_joined _ .plain _ _ _ target styled) rfl

theorem kind_of_style (kind : Dependence) : kindOf? ((style kind).toList ++ [']']) = some kind := by
  cases kind with
  | data => rfl
  | control arm => cases arm <;> rfl

theorem statement_node (n : Node) : statement? (nodeText n) = some (.node n.id (attributes n).toList) := by
  have split : nodeText n = digitsOf n.id ++ ' ' :: '[' :: ((attributes n).toList ++ [']']) := by simp [nodeText]
  obtain ⟨digits, rest⟩ := digits_until n.id ' ' ('[' :: ((attributes n).toList ++ [']'])) rfl
  have noArrow : " -> ".toList.isPrefixOf? (' ' :: '[' :: ((attributes n).toList ++ [']'])) = none := rfl
  have attributes : " [".toList.isPrefixOf? (' ' :: '[' :: ((attributes n).toList ++ [']'])) =
      some ((attributes n).toList ++ [']']) := rfl
  rw [statement?, split, digits, rest, number_of_digits, noArrow, attributes]
  simp

theorem statement_edge (e : Edge) : statement? (edgeText e) = some (.edge e.source e.target e.kind) := by
  have split : edgeText e = digitsOf e.source ++ ' ' :: '-' :: '>' :: ' ' :: (digitsOf e.target ++
      ' ' :: '[' :: ((style e.kind).toList ++ [']'])) := by simp [edgeText]
  obtain ⟨first, afterFirst⟩ := digits_until e.source ' ' ('-' :: '>' :: ' ' :: (digitsOf e.target ++
      ' ' :: '[' :: ((style e.kind).toList ++ [']']))) rfl
  obtain ⟨second, afterSecond⟩ := digits_until e.target ' ' ('[' :: ((style e.kind).toList ++ [']'])) rfl
  have arrow : " -> ".toList.isPrefixOf? (' ' :: '-' :: '>' :: ' ' :: (digitsOf e.target ++
      ' ' :: '[' :: ((style e.kind).toList ++ [']']))) =
      some (digitsOf e.target ++ ' ' :: '[' :: ((style e.kind).toList ++ [']'])) := rfl
  have attributes : " [".toList.isPrefixOf? (' ' :: '[' :: ((style e.kind).toList ++ [']'])) =
      some ((style e.kind).toList ++ [']']) := rfl
  rw [statement?, split, first, afterFirst, number_of_digits, arrow]
  simp only [second, afterSecond, number_of_digits, attributes, kind_of_style, Option.map_some]

def shown (g : Graph) : List Edge := g.nodes.values.flatMap g.forwardOutgoing

def drawn (g : Graph) : List Statement :=
  g.nodes.values.map (fun n => .node n.id (attributes n).toList) ++
    (shown g).map fun e => .edge e.source e.target e.kind

theorem render_closed (g : Graph) :
    (render g).toList =
      closed '\n' (opening :: (g.nodes.values.map nodeText ++ (shown g).map edgeText) ++ [closing]) := by
  have nodes : (g.nodes.values.map nodeLine).flatMap String.toList = closed '\n' (g.nodes.values.map nodeText) := by
    rw [closed, List.flatMap_map, List.flatMap_map]
    exact List.flatMap_congr fun n _ => node_line_text n
  have edges : ((shown g).map edgeLine).flatMap String.toList = closed '\n' ((shown g).map edgeText) := by
    rw [closed, List.flatMap_map, List.flatMap_map]
    exact List.flatMap_congr fun e _ => edge_line_text e
  have first : "digraph loop_analysis_graph \x7b\n".toList = opening ++ ['\n'] := by decide
  have last : "\x7d\n".toList = closing ++ ['\n'] := rfl
  -- For any two texts around the middle, since a literal is slow to be seen as no concatenation.
  have parts : ∀ front back : String,
      (front ++ String.join (g.nodes.values.map nodeLine) ++ String.join ((shown g).map edgeLine) ++ back).toList =
        front.toList ++ closed '\n' (g.nodes.values.map nodeText) ++ closed '\n' ((shown g).map edgeText) ++
          back.toList := by
    intro front back
    rw [String.toList_append, String.toList_append, String.toList_append, String.toList_join, String.toList_join,
      nodes, edges]
  refine (parts "digraph loop_analysis_graph \x7b\n" "\x7d\n").trans ?_
  rw [first, last]
  simp only [closed, List.flatMap_cons, List.flatMap_append, List.flatMap_nil, List.cons_append, List.append_assoc,
    List.append_nil]

theorem statements_of_drawn (g : Graph) :
    (g.nodes.values.map nodeText ++ (shown g).map edgeText).mapM statement? = some (drawn g) := by
  have nodes : (g.nodes.values.map nodeText).mapM statement? =
      some (g.nodes.values.map fun n => .node n.id (attributes n).toList) := by
    induction g.nodes.values with
    | nil => rfl
    | cons n rest ih =>
        rw [List.map_cons, List.mapM_cons, statement_node, ih]
        rfl
  have edges : ((shown g).map edgeText).mapM statement? =
      some ((shown g).map fun e => .edge e.source e.target e.kind) := by
    induction shown g with
    | nil => rfl
    | cons e rest ih =>
        rw [List.map_cons, List.mapM_cons, statement_edge, ih]
        rfl
  rw [List.mapM_append, nodes, edges]
  rfl

-- Whatever the graph, and whatever its labels, its drawing reads back as the statements it was made of.
theorem read_render (g : Graph) : read? (render g) = some (drawn g) := by
  have whole : ∀ line ∈ opening :: (g.nodes.values.map nodeText ++ (shown g).map edgeText) ++ [closing],
      Scan.plain.through line = some .plain := by
    intro line member
    simp only [List.cons_append, List.mem_cons, List.mem_append, List.mem_map, List.not_mem_nil, or_false] at member
    rcases member with rfl | (⟨n, _, rfl⟩ | ⟨e, _, rfl⟩) | rfl
    · rfl
    · exact through_node_text n
    · exact through_edge_text e
    · rfl
  rw [read?, render_closed, lines_of_closed _ whole]
  simp only [List.cons_append, List.reverse_append, List.reverse_cons, List.reverse_nil, List.nil_append,
    and_self, if_true, List.reverse_reverse]
  exact statements_of_drawn g

theorem edges_of_drawn (g : Graph) : edges (drawn g) = (shown g).map fun e => (e.source, e.target, e.kind) := by
  rw [edges, drawn, List.filterMap_append, List.filterMap_map, List.filterMap_map]
  have nodes : ∀ n ∈ g.nodes.values, (Statement.edge? ∘ fun n => .node n.id (attributes n).toList) n = none :=
    fun _ _ => rfl
  rw [List.filterMap_eq_nil_iff.mpr nodes, List.nil_append, ← List.filterMap_eq_map]
  rfl

end Dot

end LoopDeps
