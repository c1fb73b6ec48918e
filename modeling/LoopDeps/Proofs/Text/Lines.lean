import LoopDeps.Text.Parse
import LoopDeps.Proofs.Text.Reading
set_option autoImplicit false

/- The lines of a written module, from instructions up to whole functions, are read one after another. -/
namespace LoopDeps.Text.Grammar

open Matcher

theorem leads_newline : (newline : Part Unit).Leads isLineEnd := by
  refine ⟨rfl, ?_⟩
  intro c rest other
  have unended : lineEnd (c :: rest) = none := by
    unfold lineEnd
    split
    · rename_i here
      rw [(List.cons.inj here).1] at other
      cases other
    · rename_i here
      rw [(List.cons.inj here).1] at other
      cases other
    · rename_i here
      rw [(List.cons.inj here).1] at other
      cases other
    · rfl
  simp only [newline, unended, Option.map_none]

theorem name_goes_on (c : Char) (name : isNameChar c = true) : isLineEnd c = false := by
  rw [isLineEnd, beq_false_of_ne (class_ne c isNameChar name '\n' rfl),
    beq_false_of_ne (class_ne c isNameChar name '\r' rfl), Bool.or_self]

theorem leads_newlines : newlines.Leads isLineEnd := by
  unfold newlines many1
  exact (leads_newline.andThen _).map _

theorem leads_spelled (rule : Rule) (start member : Char → Bool) : (token rule (startThen start member)).Leads start := by
  apply leads_token
  · rfl
  · intro c rest other
    rw [startThen, other, if_neg Bool.false_ne_true]

theorem leads_opcode : opcode.Leads Char.isLower := leads_spelled .opcode Char.isLower isOpcodeChar

theorem leads_identifier : identifier.Leads isNameStart := leads_spelled .identifier isNameStart isNameChar

theorem takes_newlines (rest : Chars) (last : (newline : Part Unit).Misses rest) : newlines.Takes ('\n' :: rest) [()] rest := by
  have first : (newline : Part Unit).Takes ('\n' :: rest) () rest := .of_read rfl
  exact (first.andThen last.many).map fun pair => pair.1 :: pair.2

section

variable (instr : Source.Instr) (valid : instr.Valid)

include valid

theorem takes_result (c : Char) (more : Chars) (lower : c.isLower = true) :
    assign.option.Takes (instr.resultText.toList ++ c :: more) instr.result (c :: more) := by
  cases result : instr.result with
  | none =>
      have noSigil : localName.Misses (c :: more) := by
        apply (leads_sigil .localName '%').misses c more (name_solid c (lower_in_name c lower))
        simpa using class_ne c Char.isLower lower '%' rfl
      have chars : instr.resultText.toList = [] := by simp [Source.Instr.resultText, result]
      rw [chars]
      exact (noSigil.keepLeft _).named.option
  | some name =>
      have chars : instr.resultText.toList ++ c :: more =
          '%' :: (name.toList ++ ' ' :: '=' :: ' ' :: c :: more) := by
        simp [Source.Instr.resultText, result]
      have named := takes_local (' ' :: '=' :: ' ' :: c :: more) name (valid.result name result) (breaks_cons ' ' _ rfl)
      have equals : (sign "=").Takes (' ' :: '=' :: ' ' :: c :: more) () (c :: more) := ⟨' ' :: c :: more, rfl, rfl⟩
      rw [chars]
      exact (named.keepLeft equals).named.option

theorem takes_operands (rest : Chars) :
    operands.option.Takes (instr.operandsText.toList ++ '\n' :: rest)
      (if instr.operands.isEmpty then none else some instr.operands) ('\n' :: rest) := by
  cases here : instr.operands with
  | nil =>
      have missed : operands.Misses ('\n' :: rest) :=
        ((leads_operand.andThen _).map _).named.misses '\n' rest rfl rfl
      have chars : instr.operandsText.toList = [] := by simp [Source.Instr.operandsText, here]
      rw [chars]
      exact missed.option
  | cons first others =>
      have chars : instr.operandsText.toList ++ '\n' :: rest =
          ' ' :: ((Source.listed ((first :: others).map Source.operandText)).toList ++ '\n' :: rest) := by
        simp [Source.Instr.operandsText, here]
      have each : ∀ one ∈ first :: others, ∀ after, Breaks after →
          operand.Takes ((Source.operandText one).toList ++ after) (id one) after := by
        intro one member after breaks
        exact takes_operand after breaks one (valid.operands one (here ▸ member))
      have noComma : (sign ",").Misses ('\n' :: rest) := ⟨rfl⟩
      have taken := takes_listed operand Source.operandText id first others each ('\n' :: rest) (breaks_cons '\n' _ rfl)
        noComma
      rw [chars]
      rw [List.map_id] at taken
      exact taken.named.option.space

omit valid in
theorem operands_break (rest : Chars) : Breaks (instr.operandsText.toList ++ '\n' :: rest) := by
  rw [Source.Instr.operandsText]
  split
  · exact breaks_cons '\n' rest rfl
  · rw [String.toList_append]
    exact breaks_cons ' ' _ rfl

theorem takes_type_of (rest : Chars) :
    type.option.Takes (instr.typeText.toList ++ (instr.operandsText.toList ++ '\n' :: rest))
      (if instr.hasType then some instr.type.written else none) (instr.operandsText.toList ++ '\n' :: rest) := by
  cases has : instr.hasType with
  | true =>
      have chars : instr.typeText.toList = ' ' :: instr.type.text.toList := by simp [Source.Instr.typeText, has]
      rw [chars]
      exact (takes_type instr.type _ (operands_break instr rest)).option.space
  | false =>
      have chars : instr.typeText.toList = [] := by simp [Source.Instr.typeText, has]
      rw [chars]
      apply Misses.option
      cases here : instr.operands with
      | nil =>
          have bare : instr.operandsText.toList = [] := by simp [Source.Instr.operandsText, here]
          rw [bare]
          exact leads_type.misses '\n' rest rfl rfl
      | cons first others =>
          have spelled : instr.operandsText.toList =
              ' ' :: ((Source.operandText first).toList ++
                (others.map Source.operandText).flatMap fun one => ',' :: ' ' :: one.toList) := by
            simp [Source.Instr.operandsText, here, Source.listed_chars]
          rw [spelled, List.nil_append, List.cons_append, List.append_assoc]
          exact (type_misses_operand first (valid.operands first (here ▸ List.mem_cons_self)) _).space

-- An instruction and the end of its line, up to a line that is not empty.
def line : Part WrittenInstr := Grammar.instr.keepLeft newlines

theorem takes_line (rest : Chars) (last : (newline : Part Unit).Misses rest) :
    line.Takes (instr.text.toList ++ rest) instr.written rest := by
  have chars : instr.text.toList ++ rest =
      ' ' :: ' ' :: (instr.resultText.toList ++ (instr.opcode.toList ++ (instr.typeText.toList ++
        (instr.operandsText.toList ++ '\n' :: rest)))) := by simp [Source.Instr.text]
  have afterOpcode : Breaks (instr.typeText.toList ++ (instr.operandsText.toList ++ '\n' :: rest)) := by
    rw [Source.Instr.typeText]
    split
    · rw [String.toList_append]
      exact breaks_cons ' ' _ rfl
    · exact operands_break instr rest
  have opcodes := takes_opcode _ instr.opcode valid.opcode (breaks_member isOpcodeChar opcode_in_name _ afterOpcode)
  obtain ⟨c, more, same, lower, _⟩ := valid.opcode
  have results := takes_result instr valid c
    (more ++ (instr.typeText.toList ++ (instr.operandsText.toList ++ '\n' :: rest))) lower
  rw [← List.cons_append, ← same] at results
  have parts := results.andThen
    (opcodes.andThen ((takes_type_of instr valid rest).andThen (takes_operands instr valid rest)))
  have value : instr.written =
      ⟨instr.result, instr.opcode, if instr.hasType then some instr.type.written else none,
        (if instr.operands.isEmpty then none else some instr.operands).getD []⟩ := by
    cases here : instr.operands <;> simp [Source.Instr.written, here]
  have whole : Grammar.instr.Takes (instr.resultText.toList ++ (instr.opcode.toList ++ (instr.typeText.toList ++
      (instr.operandsText.toList ++ '\n' :: rest)))) instr.written ('\n' :: rest) := by
    rw [value]
    exact (parts.map _).named
  rw [chars]
  exact (whole.keepLeft (takes_newlines rest last)).space.space

theorem line_head : ∃ c more, instr.text.toList = ' ' :: ' ' :: c :: more ∧ isBlank c = false ∧ isLineEnd c = false := by
  have chars : instr.text.toList = ' ' :: ' ' :: (instr.resultText.toList ++
      (instr.opcode.toList ++ (instr.typeText.toList ++ (instr.operandsText.toList ++ ['\n'])))) := by
    simp [Source.Instr.text]
  rw [chars]
  cases result : instr.result with
  | none =>
      obtain ⟨c, more, same, lower, _⟩ := valid.opcode
      have name := lower_in_name c lower
      have unnamed : instr.resultText.toList = [] := by simp [Source.Instr.resultText, result]
      rw [unnamed, same]
      exact ⟨c, _, rfl, name_solid c name, name_goes_on c name⟩
  | some name =>
      have named : instr.resultText.toList = '%' :: (name.toList ++ " = ".toList) := by
        simp [Source.Instr.resultText, result]
      rw [named]
      exact ⟨'%', _, rfl, rfl, rfl⟩

end

theorem lines_series (instrs : List Source.Instr) (valid : ∀ instr ∈ instrs, instr.Valid) :
    Series line (fun instr => instr.text.toList) Source.Instr.written (newline : Part Unit).Misses instrs where
  each := fun instr member => takes_line instr (valid instr member)
  follows := by
    intro instr member rest
    obtain ⟨c, more, same, solid, goesOn⟩ := line_head instr (valid instr member)
    rw [same]
    exact (leads_newline.misses c (more ++ rest) solid goesOn).space.space
  shorter := by
    intro instr member rest
    obtain ⟨c, more, same, solid, _⟩ := line_head instr (valid instr member)
    rw [same]
    exact skip_shorter c solid more rest

theorem takes_weight (text : String) (valid : IsNumber text) (rest : Chars) :
    weight.option.Takes (' ' :: ("!weight".toList ++ ' ' :: (text.toList ++ '\n' :: rest))) (some text) ('\n' :: rest) := by
  have word : ∀ s, (sign "!weight").Takes (' ' :: ("!weight".toList ++ s)) () s := fun s => .of_read rfl
  have amount := takes_number ('\n' :: rest) text valid (breaks_cons '\n' rest rfl)
  exact ((word _).keepRight amount.space).named.option

-- What follows a block: no empty line and no more of its instructions.
def EndsBlock (rest : Chars) : Prop := (newline : Part Unit).Misses rest ∧ line.Misses rest

theorem takes_block (written : Source.Block) (valid : written.Valid) (rest : Chars) (ends : EndsBlock rest) :
    Grammar.block.Takes (written.text.toList ++ rest) written.written rest := by
  have series := lines_series written.instrs valid.instrs
  have body := series.many rest ends.1 ends.2
  have chars : written.text.toList ++ rest = written.label.toList ++ (':' :: ' ' :: ("!weight".toList ++
      ' ' :: (written.weight.toList ++ '\n' :: ((written.instrs.flatMap fun instr => instr.text.toList) ++ rest)))) := by
    simp [Source.Block.text, String.toList_join, List.flatMap_map]
  have colon : ∀ s, (sign ":").Takes (':' :: s) () s := fun s => .of_read rfl
  have labels : ∀ s, identifier.Takes (written.label.toList ++ ':' :: s) written.label (':' :: s) := fun s =>
    takes_identifier _ written.label valid.label (breaks_cons ':' s rfl)
  have opened := takes_newlines _ (series.fits_all rest ends.1)
  have weighed := takes_weight written.weight valid.weight
    ((written.instrs.flatMap fun instr => instr.text.toList) ++ rest)
  rw [chars]
  exact ((((labels _).keepLeft (colon _)).andThen (weighed.andThen (opened.keepRight body))).map _).named

-- A character of a label, or behind it, that ends an opcode.
def endsOpcode (c : Char) : Bool := (isNameChar c || c == ':') && !isOpcodeChar c

section

variable (c : Char) (ends : endsOpcode c = true)

include ends

theorem ends_opcode_no_type : opensType c = false := class_apart c endsOpcode ends _ rfl

theorem ends_opcode_no_operand : opensOperand c = false := by
  have noDigit : c.isDigit = false := by
    rw [Bool.eq_false_iff]
    intro digit
    simp [endsOpcode, isOpcodeChar, digit] at ends
  have apart := class_apart c endsOpcode ends
  rw [opensOperand, opensValue, opensConstant, noDigit, apart ['l', '['] rfl, apart ['%', '@'] rfl,
    apart ['-', 't', 'f', 'n', 'u', 'z'] rfl, Bool.or_self, Bool.or_self, Bool.or_self]

theorem ends_opcode_no_line : isLineEnd c = false := by
  simpa [isLineEnd] using class_apart c endsOpcode ends ['\n', '\r'] rfl

theorem ends_opcode_solid : isBlank c = false := by
  simpa [isBlank, and_assoc] using class_apart c endsOpcode ends [' ', '\t', ';'] rfl

end

theorem line_misses_after (s : Chars) (noAssign : assign.Misses s) (c : Char) (rest : Chars) (ends : endsOpcode c = true)
    (text : String) (taken : opcode.Takes s text (c :: rest)) : line.Misses s := by
  have solid := ends_opcode_solid c ends
  have noType := leads_type.misses c rest solid (ends_opcode_no_type c ends)
  have noOperand : operands.Misses (c :: rest) :=
    ((leads_operand.andThen _).map _).named.misses c rest solid (ends_opcode_no_operand c ends)
  have noEnd : newlines.Misses (c :: rest) := leads_newlines.misses c rest solid (ends_opcode_no_line c ends)
  have parts := noAssign.option.andThen (taken.andThen (noType.option.andThen noOperand.option))
  exact (parts.map _).named.keepLeft_misses noEnd

-- A label is never taken for an instruction, even if an opcode stands in front of it.
theorem line_misses_label (label : String) (valid : IsIdentifier label) (rest : Chars) :
    line.Misses (label.toList ++ ':' :: rest) := by
  obtain ⟨c, more, same, start, all⟩ := valid
  have name := start_in_name c start
  have solid := name_solid c name
  have noAssign : assign.Misses (label.toList ++ ':' :: rest) := by
    rw [same]
    have noSigil := (leads_sigil .localName '%').misses c (more ++ ':' :: rest) solid
      (by simpa using class_ne c isNameChar name '%' rfl)
    exact (noSigil.keepLeft _).named
  cases lower : c.isLower with
  | false =>
      have noOpcode : opcode.Misses (label.toList ++ ':' :: rest) := by
        rw [same]
        exact leads_opcode.misses c _ solid lower
      exact ((noAssign.option.andThen_misses (noOpcode.andThen _)).map _).named.keepLeft _
  | true =>
      obtain ⟨word, left, rfl, inWord, stops⟩ := class_splits isOpcodeChar more
      have split : label.toList ++ ':' :: rest = (String.ofList (c :: word)).toList ++ (left ++ ':' :: rest) := by
        simp [same]
      have opcodes : IsOpcode (String.ofList (c :: word)) := ⟨c, word, String.toList_ofList, lower, inWord⟩
      obtain ⟨d, after, here, ends⟩ : ∃ d after, left ++ ':' :: rest = d :: after ∧ endsOpcode d = true := by
        cases left with
        | nil => exact ⟨':', rest, rfl, rfl⟩
        | cons d after => exact ⟨d, after ++ ':' :: rest, rfl, by simp [endsOpcode, all d (by simp), stops d rfl]⟩
      have notOpcode : ∀ e ∈ (d :: after).head?, isOpcodeChar e = false := by
        intro e first
        cases first
        simpa [endsOpcode] using (Bool.and_eq_true_iff.mp ends).2
      rw [split, here] at noAssign ⊢
      exact line_misses_after _ noAssign d after ends _ (takes_opcode (d :: after) _ opcodes notOpcode)

theorem block_chars (written : Source.Block) : ∃ more, written.text.toList = written.label.toList ++ ':' :: more :=
  ⟨" !weight ".toList ++ written.weight.toList ++ '\n' :: written.instrs.flatMap fun instr => instr.text.toList,
    by simp [Source.Block.text, String.toList_join, List.flatMap_map]⟩

theorem blocks_series (blocks : List Source.Block) (valid : ∀ block ∈ blocks, block.Valid) :
    Series Grammar.block (fun block => block.text.toList) Source.Block.written EndsBlock blocks where
  each := fun block member => takes_block block (valid block member)
  follows := by
    intro block member rest
    have label := (valid block member).label
    obtain ⟨more, chars⟩ := block_chars block
    have noInstr := line_misses_label block.label label (more ++ rest)
    obtain ⟨c, others, same, start, _⟩ := label
    have name := start_in_name c start
    rw [chars, List.append_assoc, List.cons_append]
    refine ⟨?_, noInstr⟩
    rw [same]
    exact leads_newline.misses c _ (name_solid c name) (name_goes_on c name)
  shorter := by
    intro block member rest
    obtain ⟨more, chars⟩ := block_chars block
    obtain ⟨c, others, same, start, _⟩ := (valid block member).label
    rw [chars, same, List.cons_append]
    exact skip_shorter c (name_solid c (start_in_name c start)) _ rest

theorem takes_param (written : Source.Param) (valid : written.Valid) (rest : Chars) (breaks : Breaks rest) :
    param.Takes (written.text.toList ++ rest) written.written rest := by
  have chars : written.text.toList ++ rest =
      '%' :: (written.name.toList ++ ':' :: ' ' :: (written.type.text.toList ++ rest)) := by simp [Source.Param.text]
  have names := takes_local (':' :: ' ' :: (written.type.text.toList ++ rest)) written.name valid.name
    (breaks_cons ':' _ rfl)
  have colon : ∀ s, (sign ":").Takes (':' :: s) () s := fun s => .of_read rfl
  rw [chars]
  exact (((names.keepLeft (colon _)).andThen (takes_type written.type rest breaks).space).map _).named

theorem takes_params (written : List Source.Param) (valid : ∀ one ∈ written, one.Valid) (rest : Chars) :
    params.option.Takes ((Source.listed (written.map Source.Param.text)).toList ++ ')' :: rest)
      (if written.isEmpty then none else some (written.map Source.Param.written)) (')' :: rest) := by
  cases written with
  | nil =>
      have locals : localName.Leads (· == '%') := leads_sigil .localName '%'
      have missed : params.Misses (')' :: rest) := by
        apply Misses.named
        apply Misses.map
        apply Misses.andThen
        apply Misses.named
        exact ((((locals.keepLeft _).andThen _).map _)).misses ')' rest rfl rfl
      exact missed.option
  | cons first others =>
      have noComma : (sign ",").Misses (')' :: rest) := ⟨rfl⟩
      have taken := takes_listed param Source.Param.text Source.Param.written first others
        (fun one member after breaks => takes_param one (valid one member) after breaks) (')' :: rest)
        (breaks_cons ')' _ rfl) noComma
      exact taken.named.option

theorem leads_assign : assign.Leads (· == '%') := by
  have locals : localName.Leads (· == '%') := leads_sigil .localName '%'
  exact (locals.keepLeft _).named

theorem ends_block_brace (rest : Chars) : EndsBlock ('\x7d' :: rest) := by
  have noAssign : assign.Misses ('\x7d' :: rest) := leads_assign.misses '\x7d' rest rfl rfl
  have noOpcode : opcode.Misses ('\x7d' :: rest) := leads_opcode.misses '\x7d' rest rfl rfl
  have noInstr : Grammar.instr.Misses ('\x7d' :: rest) :=
    ((noAssign.option.andThen_misses (noOpcode.andThen _)).map _).named
  exact ⟨leads_newline.misses '\x7d' rest rfl rfl, noInstr.keepLeft _⟩

theorem takes_header (written : Source.Function) (valid : written.Valid) (rest : Chars) :
    header.Takes ("func".toList ++ ' ' :: '@' :: (written.name.toList ++ '(' ::
      ((Source.listed (written.params.map Source.Param.text)).toList ++ ')' :: rest)))
      (written.name, written.params.map Source.Param.written) rest := by
  have word : ∀ s, (sign "func").Takes ("func".toList ++ s) () s := fun s => .of_read rfl
  have opening : ∀ s, (sign "(").Takes ('(' :: s) () s := fun s => .of_read rfl
  have closing : (sign ")").Takes (')' :: rest) () rest := .of_read rfl
  have names := fun s => takes_global ('(' :: s) written.name valid.name (breaks_cons '(' s rfl)
  have listed := (takes_params written.params valid.params rest).map fun params => params.getD []
  have value : (if written.params.isEmpty then none else some (written.params.map Source.Param.written)).getD [] =
      written.params.map Source.Param.written := by cases written.params <;> rfl
  rw [value] at listed
  exact ((word _).keepRight (names _).space).andThen ((opening _).keepRight (listed.keepLeft closing))

theorem takes_body (written : Source.Function) (valid : written.Valid) (rest : Chars) :
    Grammar.block.many1.Takes ((written.blocks.flatMap fun block => block.text.toList) ++ '\x7d' :: rest)
      (written.blocks.map Source.Block.written) ('\x7d' :: rest) := by
  have series := blocks_series written.blocks valid.blocks
  have blocks : Grammar.block.Leads isNameStart := (((leads_identifier.keepLeft _).andThen _).map _).named
  have noBlock := blocks.misses '\x7d' rest rfl rfl
  cases here : written.blocks with
  | nil => exact absurd here valid.nonempty
  | cons first others =>
      rw [here] at series
      exact series.many1 ('\x7d' :: rest) (ends_block_brace rest) noBlock

theorem function_chars (written : Source.Function) : ∃ more, written.text.toList = 'f' :: more :=
  ⟨"unc @".toList ++ (written.name ++ "(" ++ Source.listed (written.params.map Source.Param.text) ++ ") \x7b\n" ++
    String.join (written.blocks.map Source.Block.text) ++ "\x7d\n").toList, by simp [Source.Function.text]⟩

theorem takes_function (written : Source.Function) (valid : written.Valid) (rest : Chars)
    (last : (newline : Part Unit).Misses rest) :
    (function.keepLeft newline.many).Takes (written.text.toList ++ rest) written.written rest := by
  have series := blocks_series written.blocks valid.blocks
  have chars : written.text.toList ++ rest = "func".toList ++ ' ' :: '@' :: (written.name.toList ++ '(' ::
      ((Source.listed (written.params.map Source.Param.text)).toList ++ ')' :: ' ' :: '\x7b' :: '\n' ::
        ((written.blocks.flatMap fun block => block.text.toList) ++ '\x7d' :: '\n' :: rest))) := by
    simp [Source.Function.text, String.toList_join, List.flatMap_map]
  have body := takes_body written valid ('\n' :: rest)
  have fits := (series.fits_all ('\x7d' :: '\n' :: rest) (ends_block_brace ('\n' :: rest))).1
  have opening : ∀ s, (sign "\x7b").Takes ('\x7b' :: s) () s := fun s => .of_read rfl
  have closing : (sign "\x7d").Takes ('\x7d' :: '\n' :: rest) () ('\n' :: rest) := .of_read rfl
  have ending : (newline : Part Unit).Takes ('\n' :: rest) () rest := .of_read rfl
  have braced := (opening _).space.keepRight ((takes_newlines _ fits).keepRight (body.keepLeft closing))
  have whole : function.Takes _ written.written ('\n' :: rest) :=
    (((takes_header written valid _).andThen braced).map _).named
  rw [chars]
  exact whole.keepLeft (ending.many_once last)

theorem functions_series (functions : List Source.Function) (valid : ∀ one ∈ functions, one.Valid) :
    Series (function.keepLeft newline.many) (fun one => one.text.toList) Source.Function.written
      (newline : Part Unit).Misses functions where
  each := fun one member => takes_function one (valid one member)
  follows := by
    intro one _ rest
    obtain ⟨more, chars⟩ := function_chars one
    rw [chars]
    exact leads_newline.misses 'f' _ rfl rfl
  shorter := by
    intro one _ rest
    obtain ⟨more, chars⟩ := function_chars one
    rw [chars]
    exact skip_shorter 'f' rfl more rest

theorem takes_program (functions : List Source.Function) (valid : ∀ one ∈ functions, one.Valid) :
    program.Takes (Source.text functions).toList (functions.map Source.Function.written) [] := by
  have series := functions_series functions valid
  have chars : (Source.text functions).toList = (functions.flatMap fun one => one.text.toList) ++ [] := by
    simp [Source.text, String.toList_join, List.flatMap_map]
  have noLine : (newline : Part Unit).Misses [] := leads_newline.misses_nil
  have noFunction : (function.keepLeft newline.many).Misses [] := by
    have words : (sign "func").Leads (· == 'f') := leads_sign "func" 'f' _ rfl
    have functions : function.Leads (· == 'f') := ((((words.keepRight _).andThen _).andThen _).map _).named
    exact (functions.keepLeft _).misses_nil
  have body := series.many [] noLine noFunction
  have ending : endOfInput.Takes [] () [] := .of_read rfl
  have start := (series.fits_all [] noLine).many
  rw [chars]
  exact ((takes_done () _).keepRight (start.keepRight (body.keepLeft ending))).named

theorem read_text (functions : List Source.Function) (valid : ∀ one ∈ functions, one.Valid) :
    Text.read (Source.text functions).toList = .ok (functions.map Source.Function.written) := by
  obtain ⟨left, read, _⟩ := takes_program functions valid
  have solid : skip (Source.text functions).toList = (Source.text functions).toList := by
    cases functions with
    | nil => rfl
    | cons first others =>
        obtain ⟨more, chars⟩ := function_chars first
        have text : (Source.text (first :: others)).toList = 'f' :: (more ++ (Source.text others).toList) := by
          simp [Source.text, String.toList_join, chars]
        rw [text]
        rfl
  rw [solid] at read
  rw [Text.read, read]

end LoopDeps.Text.Grammar
