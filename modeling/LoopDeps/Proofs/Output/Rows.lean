import LoopDeps.Graph.Record
import LoopDeps.Proofs.Graph.Marking
import LoopDeps.Proofs.Output.Fields
set_option autoImplicit false

/- The record of a graph, read back. A row tells by the letters of the kinds where its edges end, so that its counts
   are fields like any other, and the numbers in them can be compared with the edges that follow. -/
namespace LoopDeps

namespace Record

open Output

-- The other end of an edge, its kind, and the weight shown with it.
structure Entry where
  other : NodeId
  kind : Dependence
  weight : Text
deriving DecidableEq, Repr

structure Row where
  depth : Nat
  weight : Text
  category : Text
  numType : Text
  outCount : Nat
  outs : List Entry
  inCount : Nat
  ins : List Entry
deriving DecidableEq, Repr

structure Contents where
  size : Nat
  depth : Nat
  coverage : Text
  rows : List Row
deriving DecidableEq, Repr

def kind? : Text → Option Dependence
  | ['D'] => some .data
  | ['Y'] => some (.control true)
  | ['N'] => some (.control false)
  | _ => none

-- The entries at the front of some fields, and the fields after them.
def entries : List Text → List Entry × List Text
  | other :: kind :: weight :: rest =>
      match number? other, kind? kind with
      | some id, some dependence =>
          let (more, left) := entries rest
          (⟨id, dependence, weight⟩ :: more, left)
      | _, _ => ([], other :: kind :: weight :: rest)
  | fields => ([], fields)

def row? (line : Text) : Option Row :=
  match line.splitOn '\t' with
  | depth :: weight :: category :: numType :: outCount :: fields =>
      match entries fields with
      | (outs, inCount :: more) =>
          match entries more, number? depth, number? outCount, number? inCount with
          | (ins, []), some depth, some outCount, some inCount =>
              some ⟨depth, weight, category, numType, outCount, outs, inCount, ins⟩
          | _, _, _, _ => none
      | _ => none
  | _ => none

def read? (text : String) : Option Contents :=
  match lines? text.toList with
  | some (header :: lines) =>
      match header.splitOn '\t', lines.mapM row? with
      | [size, depth, coverage], some rows =>
          match number? size, number? depth with
          | some size, some depth => some ⟨size, depth, coverage, rows⟩
          | _, _ => none
      | _, _ => none
  | _ => none

namespace Entry

def fields (entry : Entry) : List Text := [digitsOf entry.other, [entry.kind.letter], entry.weight]

-- Where the edge ends and what it is.
def link (entry : Entry) : NodeId × Dependence := (entry.other, entry.kind)

end Entry

namespace Row

def fields (row : Row) : List Text :=
  [row.weight, row.category, row.numType, digitsOf row.outCount] ++ row.outs.flatMap Entry.fields ++
    [digitsOf row.inCount] ++ row.ins.flatMap Entry.fields

def line (row : Row) : Text := led '\t' (digitsOf row.depth) row.fields

structure Clean (row : Row) : Prop where
  weight : Plain row.weight
  category : Plain row.category
  numType : Plain row.numType
  outs : ∀ entry ∈ row.outs, Plain entry.weight
  ins : ∀ entry ∈ row.ins, Plain entry.weight

end Row

theorem kind_of_letter (kind : Dependence) : kind? [kind.letter] = some kind := by
  cases kind with
  | data => rfl
  | control arm => cases arm <;> rfl

-- No number is a letter.
theorem kind_of_digits (n : Nat) : kind? (digitsOf n) = none := by
  have digit := digit_of_mem n
  unfold kind?
  split
  · rename_i same
    exact absurd (digit 'D' (by simp [same])) (by decide)
  · rename_i same
    exact absurd (digit 'Y' (by simp [same])) (by decide)
  · rename_i same
    exact absurd (digit 'N' (by simp [same])) (by decide)
  · rfl

-- Entries are read up to fields that do not go on as one.
theorem entries_read (listed : List Entry) (rest : List Text) (stop : entries rest = ([], rest)) :
    entries (listed.flatMap Entry.fields ++ rest) = (listed, rest) := by
  induction listed with
  | nil => exact stop
  | cons entry more ih =>
      rw [List.flatMap_cons, List.append_assoc]
      simp only [Entry.fields, List.cons_append, List.nil_append, entries, number_of_digits, kind_of_letter, ih]

theorem count_stops (count : Nat) (listed : List Entry) :
    entries (digitsOf count :: listed.flatMap Entry.fields) =
      ([], digitsOf count :: listed.flatMap Entry.fields) := by
  cases listed with
  | nil => rfl
  | cons entry more =>
      rw [List.flatMap_cons]
      simp only [Entry.fields, List.cons_append, List.nil_append, entries, number_of_digits, kind_of_digits]

theorem plain_entries (listed : List Entry) (clean : ∀ entry ∈ listed, Plain entry.weight) (field : Text)
    (member : field ∈ listed.flatMap Entry.fields) : Plain field := by
  obtain ⟨entry, inList, inEntry⟩ := List.mem_flatMap.mp member
  simp only [Entry.fields, List.mem_cons, List.not_mem_nil, or_false] at inEntry
  rcases inEntry with rfl | rfl | rfl
  · exact digits_plain entry.other
  · cases entry.kind with
    | data => exact ⟨by decide, by decide⟩
    | control arm => cases arm <;> exact ⟨by decide, by decide⟩
  · exact clean entry inList

theorem plain_fields (row : Row) (clean : row.Clean) (field : Text)
    (member : field ∈ digitsOf row.depth :: row.fields) : Plain field := by
  simp only [Row.fields, List.mem_cons, List.mem_append, List.not_mem_nil, or_false] at member
  rcases member with rfl | (((rfl | rfl | rfl | rfl) | out) | rfl) | into
  · exact digits_plain row.depth
  · exact clean.weight
  · exact clean.category
  · exact clean.numType
  · exact digits_plain row.outCount
  · exact plain_entries row.outs clean.outs field out
  · exact digits_plain row.inCount
  · exact plain_entries row.ins clean.ins field into

theorem row_read (row : Row) (clean : row.Clean) : row? row.line = some row := by
  have split : row.line.splitOn '\t' = digitsOf row.depth :: row.fields :=
    split_led '\t' _ _ fun field member => (plain_fields row clean field member).1
  have ins : entries (row.ins.flatMap Entry.fields) = (row.ins, []) := by
    simpa using entries_read row.ins [] rfl
  have outs := entries_read row.outs _ (count_stops row.inCount row.ins)
  rw [row?, split]
  simp only [Row.fields, List.cons_append, List.nil_append, List.append_assoc, outs, ins, number_of_digits]

def outEntry (g : Graph) (e : Edge) : Entry := ⟨e.target, e.kind, (weightText (g.weightOf e.target)).toList⟩

def inEntry (g : Graph) (n : Node) (e : Edge) : Entry :=
  ⟨e.source, e.kind, (weightText (if e.kind.isControl then n.weight else g.weightOf e.source)).toList⟩

def rowOf (g : Graph) (n : Node) : Row :=
  { depth := n.depth
    weight := (weightText n.weight).toList
    category := [n.categoryLetter]
    numType := [n.numType.letter]
    outCount := n.forwardOutCount
    outs := (g.forwardAt .source n).map (outEntry g)
    inCount := n.forwardInCount
    ins := (g.forwardAt .target n).map (inEntry g n) }

theorem row_of_clean (g : Graph) (n : Node) : (rowOf g n).Clean := by
  refine ⟨fixed_plain 0 n.weight, ?_, ?_, ?_, ?_⟩
  · show Plain [n.categoryLetter]
    unfold Node.categoryLetter
    split <;> exact ⟨by decide, by decide⟩
  · show Plain [n.numType.letter]
    cases n.numType <;> exact ⟨by decide, by decide⟩
  · intro entry member
    obtain ⟨e, _, rfl⟩ := List.mem_map.mp member
    exact fixed_plain 0 _
  · intro entry member
    obtain ⟨e, _, rfl⟩ := List.mem_map.mp member
    exact fixed_plain 0 _

theorem field_text (text : String) : (field text).toList = '\t' :: text.toList := by
  rw [field, String.toList_append]
  rfl

theorem out_fields (g : Graph) (e : Edge) :
    (outFields g e).toList = (outEntry g e).fields.flatMap fun field => '\t' :: field := by
  simp [outFields, edgeFields, field_text, outEntry, Entry.fields, digitsOf]

theorem in_fields (g : Graph) (n : Node) (e : Edge) :
    (inFields g n e).toList = (inEntry g n e).fields.flatMap fun field => '\t' :: field := by
  simp [inFields, edgeFields, field_text, inEntry, Entry.fields, digitsOf]

theorem node_line (g : Graph) (n : Node) : (nodeLine g n).toList = (rowOf g n).line ++ ['\n'] := by
  have outs : g.forwardOutgoing n = g.forwardAt .source n := rfl
  have ins : g.forwardIncoming n = g.forwardAt .target n := rfl
  simp only [nodeLine, outs, ins, String.toList_append, String.toList_join, field_text, List.flatMap_map, out_fields,
    in_fields, Row.line, led, Row.fields, rowOf, List.flatMap_append, List.flatMap_cons, List.flatMap_nil,
    List.flatMap_assoc, digitsOf]
  simp [List.append_assoc]

def headerFields (g : Graph) : List Text := [['0'], (Decimal.fixed 5 g.coverage).toList]

def headerLine (g : Graph) : Text := led '\t' (digitsOf g.size) (headerFields g)

theorem plain_header (g : Graph) (field : Text) (member : field ∈ digitsOf g.size :: headerFields g) :
    Plain field := by
  simp only [headerFields, List.mem_cons, List.not_mem_nil, or_false] at member
  rcases member with rfl | rfl | rfl
  · exact digits_plain g.size
  · exact ⟨by decide, by decide⟩
  · exact fixed_plain 5 g.coverage

theorem render_closed (g : Graph) :
    (render g).toList = closed '\n' (headerLine g :: g.nodes.values.map fun n => (rowOf g n).line) := by
  have lines : (g.nodes.values.map (nodeLine g)).flatMap String.toList =
      closed '\n' (g.nodes.values.map fun n => (rowOf g n).line) := by
    rw [closed, List.flatMap_map, List.flatMap_map]
    exact List.flatMap_congr fun n _ => node_line g n
  have header : (header g).toList = headerLine g ++ ['\n'] := by
    simp [Record.header, headerLine, led, headerFields, field_text, digitsOf]
  rw [render, String.toList_append, String.toList_join, lines, header]
  rfl

def contents (g : Graph) : Contents :=
  ⟨g.size, 0, (Decimal.fixed 5 g.coverage).toList, g.nodes.values.map (rowOf g)⟩

theorem rows_read (g : Graph) (nodes : List Node) :
    (nodes.map fun n => (rowOf g n).line).mapM row? = some (nodes.map (rowOf g)) := by
  induction nodes with
  | nil => rfl
  | cons n rest ih =>
      rw [List.map_cons, List.mapM_cons, row_read _ (row_of_clean g n), ih]
      rfl

-- Whatever the graph, its record reads back as the rows it was made of.
theorem read_render (g : Graph) : read? (render g) = some (contents g) := by
  have free : ∀ line ∈ headerLine g :: g.nodes.values.map fun n => (rowOf g n).line, '\n' ∉ line := by
    intro line member
    rcases List.mem_cons.mp member with rfl | inRows
    · exact led_unbroken _ _ (plain_header g)
    · obtain ⟨n, _, rfl⟩ := List.mem_map.mp inRows
      exact led_unbroken _ _ (plain_fields _ (row_of_clean g n))
  have header : (headerLine g).splitOn '\t' = digitsOf g.size :: headerFields g :=
    split_led '\t' _ _ fun field member => (plain_header g field member).1
  have zero : number? ['0'] = some 0 := number_of_digits 0
  rw [read?, render_closed, lines_closed _ free]
  simp only [header, rows_read, headerFields, number_of_digits, zero]
  rfl

end Record

end LoopDeps
