import BinaryMachine.Proofs.CommandLine.Displays
import BinaryMachine.Proofs.CommandLine.Spellings

/-!
# The separator that is not given

Instructions on the command line need no separator, which is then inferred from their
text by looking for two characters.  A text can be read with a semicolon or with a
newline between its instructions.  If it can be read at all, it is read with the
separator that is inferred, and a text that cannot be read with either is refused.
So it makes no difference how the instructions were joined.
-/

namespace BinaryMachine

/-! ## Characters of the texts -/

theorem mem_of_mem_intercalate {separator : List Char} {c : Char} (hc : c ∉ separator) :
    ∀ {segments : List (List Char)}, c ∈ separator.intercalate segments →
      ∃ segment ∈ segments, c ∈ segment
  | [], hmem => by cases hmem
  | [segment], hmem => ⟨segment, List.mem_singleton_self _, by simpa using hmem⟩
  | segment :: next :: segments, hmem => by
      rw [List.intercalate_cons_cons, List.append_assoc, List.mem_append, List.mem_append] at hmem
      rcases hmem with hfirst | hbetween | hrest
      · exact ⟨segment, List.mem_cons_self, hfirst⟩
      · exact absurd hbetween hc
      · rcases mem_of_mem_intercalate hc hrest with ⟨found, hfound, hmem⟩
        exact ⟨found, List.mem_cons_of_mem _ hfound, hmem⟩

theorem exists_intercalate_cons_eq (separator segment : List Char) (segments : List (List Char)) :
    ∃ rest, separator.intercalate (segment :: segments) = segment ++ rest := by
  cases segments with
  | nil => exact ⟨[], by simp⟩
  | cons next segments =>
      exact ⟨_, by rw [List.intercalate_cons_cons, List.append_assoc]⟩

theorem Instruction.not_mem_chars (i : Instruction) {c : Char} (hc : isTextChar c = false) :
    c ∉ i.chars := by
  intro hmem
  rw [i.isTextChar_of_mem c hmem] at hc
  contradiction

section Foreign

variable {text : String} {members : List Instruction}

/-- No semicolon stands in instructions on lines, not even at the end of a line. -/
theorem semicolon_not_mem_of_lines (h : parseInstructions text "\n" = .ok members) :
    ';' ∉ text.toList := by
  rcases (parseInstructions_eq_ok_iff (by decide)).1 h with ⟨cuts, hsplits, hcuts⟩
  rw [if_pos rfl] at hcuts
  intro hmem
  rw [← (hsplits.intercalate_eq (by simp)).2] at hmem
  rcases mem_of_mem_intercalate (by simp) hmem with ⟨cut, hcut, hmem⟩
  have hdropped : dropCarriageReturn cut ∈ members.map Instruction.chars := by
    rw [hcuts]
    exact List.mem_map_of_mem hcut
  rcases List.mem_map.1 hdropped with ⟨i, -, hi⟩
  have hforeign : ';' ∉ i.chars := i.not_mem_chars rfl
  rcases chars_eq_dropCarriageReturn_iff.1 hi with rfl | rfl
  · exact hforeign hmem
  · simp [hforeign] at hmem

theorem newline_not_mem_of_semicolons (h : parseInstructions text ";" = .ok members) :
    '\n' ∉ text.toList := by
  have hsegmented := (parseInstructions_eq_ok_iff (by decide)).1 h
  rcases join_of_segmented (by decide) (by decide) hsegmented with ⟨-, rfl⟩
  intro hmem
  rw [toList_join] at hmem
  rcases mem_of_mem_intercalate (by simp) hmem with ⟨segment, hsegment, hmem⟩
  rcases List.mem_map.1 hsegment with ⟨i, -, rfl⟩
  exact i.not_mem_chars rfl hmem

/-- With no semicolon to cut at there is one instruction, which stands on one line. -/
theorem parse_lines_of_no_semicolon (h : parseInstructions text ";" = .ok members)
    (hnone : ';' ∉ text.toList) : parseInstructions text "\n" = .ok members := by
  have hsegmented := (parseInstructions_eq_ok_iff (by decide)).1 h
  rcases join_of_segmented (by decide) (by decide) hsegmented with ⟨hnil, rfl⟩
  cases members with
  | nil => exact absurd rfl hnil
  | cons i members =>
      cases members with
      | nil =>
          have hlines : Segmented ("\n".intercalate [i.text]) "\n" [i.chars] :=
            segmented_join hnil ⟨'\n', List.mem_singleton_self _, rfl⟩
          rw [String.intercalate_singleton] at hlines
          exact (parseInstructions_eq_ok_iff (by decide)).2 hlines
      | cons j members => simp at hnone

/-! ## Reading with the inferred separator -/

/-- The text is read as these instructions with one of the usual separators. -/
def Reads (text : String) (members : List Instruction) : Prop :=
  parseInstructions text "\n" = .ok members ∨ parseInstructions text ";" = .ok members

namespace CommandLine

theorem inferSeparator_of_semicolon_not_mem (h : ';' ∉ text.toList) :
    inferSeparator text = "\n" :=
  if_neg fun hboth => h hboth.2

theorem inferSeparator_cases (text : String) :
    inferSeparator text = "\n" ∨ inferSeparator text = ";" := by
  rw [inferSeparator]
  split
  · exact .inr rfl
  · exact .inl rfl

theorem inferSeparator_ne_empty (text : String) : inferSeparator text ≠ "" := by
  rcases inferSeparator_cases text with heq | heq <;> simp [heq]

theorem parse_inferred (h : Reads text members) :
    parseInstructions text (inferSeparator text) = .ok members := by
  rcases h with hlines | hsemicolons
  · rw [inferSeparator_of_semicolon_not_mem (semicolon_not_mem_of_lines hlines)]
    exact hlines
  · by_cases hmem : ';' ∈ text.toList
    · have hinferred : inferSeparator text = ";" :=
        if_pos ⟨newline_not_mem_of_semicolons hsemicolons, hmem⟩
      rw [hinferred]
      exact hsemicolons
    · rw [inferSeparator_of_semicolon_not_mem hmem]
      exact parse_lines_of_no_semicolon hsemicolons hmem

theorem reads_unique {others : List Instruction} (h : Reads text members)
    (hothers : Reads text others) : members = others := by
  have heq := (parse_inferred h).symm.trans (parse_inferred hothers)
  cases heq
  rfl

/-- A text that no usual separator makes readable has a segment that is no instruction. -/
theorem exists_firstMalformed (h : ¬ ∃ members, Reads text members) :
    ∃ segment, FirstMalformed (instructionSegments text (inferSeparator text)) segment := by
  cases hread : parseInstructions text (inferSeparator text) with
  | ok members =>
      refine absurd ⟨members, ?_⟩ h
      rcases inferSeparator_cases text with heq | heq
      · exact .inl (by rw [← heq, hread])
      · exact .inr (by rw [← heq, hread])
  | error failure =>
      rcases (parseInstructions_eq_error_iff (inferSeparator_ne_empty text)).1 hread with
        ⟨segment, hsegment, -⟩
      exact ⟨segment, hsegment⟩

end CommandLine

end Foreign

/-! ## Three ways to join instructions -/

/-- What stands between two instructions. -/
inductive Joint where
  | semicolon
  | lf
  | crlf
  deriving DecidableEq, Repr

namespace Joint

def text : Joint → String
  | semicolon => ";"
  | lf => "\n"
  | crlf => "\r\n"

def join (joint : Joint) (members : List Instruction) : String :=
  joint.text.intercalate (members.map Instruction.text)

/-- With CRLF between them, all instructions but the last have a carriage return. -/
theorem exists_lines_crlf :
    ∀ {members : List Instruction}, members ≠ [] → ∃ line lines,
      List.Forall₂ Instruction.OnLine members (line :: lines) ∧
        crlf.join members = "\n".intercalate (line :: lines)
  | [i], _ => ⟨i.text, [], .cons (.inl rfl) .nil, by simp [join]⟩
  | i :: j :: members, _ => by
      rcases exists_lines_crlf (List.cons_ne_nil j members) with ⟨line, lines, hlines, hjoin⟩
      refine ⟨i.text ++ "\r", line :: lines, .cons (.inr rfl) hlines, ?_⟩
      have hreturn : crlf.text = "\r" ++ "\n" := rfl
      calc crlf.join (i :: j :: members)
          = i.text ++ crlf.text ++ crlf.join (j :: members) := String.intercalate_cons_cons
        _ = i.text ++ "\r" ++ "\n" ++ crlf.join (j :: members) := by
            simp only [hreturn, String.append_assoc]
        _ = "\n".intercalate ((i.text ++ "\r") :: line :: lines) := by
            rw [hjoin, String.intercalate_cons_cons]

theorem reads_join (joint : Joint) {members : List Instruction} (hnil : members ≠ []) :
    Reads (joint.join members) members := by
  cases joint with
  | semicolon =>
      exact .inr ((parseInstructions_eq_ok_iff (by decide)).2
        (segmented_join hnil ⟨';', List.mem_singleton_self _, rfl⟩))
  | lf =>
      exact .inl ((parseInstructions_eq_ok_iff (by decide)).2
        (segmented_join hnil ⟨'\n', List.mem_singleton_self _, rfl⟩))
  | crlf =>
      rcases exists_lines_crlf hnil with ⟨line, lines, hlines, hjoin⟩
      exact .inl ((parseInstructions_eq_ok_iff (by decide)).2
        (segmented_lines_iff.2 ⟨hnil, line :: lines, hlines, hjoin⟩))

theorem beginsWithDigit_join (joint : Joint) {members : List Instruction} (hnil : members ≠ []) :
    CommandLine.BeginsWithDigit (joint.join members) := by
  rcases List.exists_cons_of_ne_nil hnil with ⟨i, members, rfl⟩
  rcases List.exists_cons_of_ne_nil i.id.digits_ne_nil with ⟨c, digits, hdigits⟩
  have hdigit : c.isDigit = true := i.id.isDigit_of_mem c (by simp [hdigits])
  rcases exists_intercalate_cons_eq joint.text.toList i.chars (members.map Instruction.chars) with
    ⟨rest, hrest⟩
  have htoList : (joint.join (i :: members)).toList = i.chars ++ rest := by
    rw [join, toList_join, List.map_cons, hrest]
  rw [Instruction.chars, hdigits] at htoList
  exact ⟨c, _, htoList, hdigit⟩

end Joint

namespace CommandLine

/-! ## Other instructions among the same items -/

section Exchange

variable {around : List Item × List Item} {text other : String} {o : Options}

theorem valueOf?_withInstructions (around : List Item × List Item) (text other : String)
    {setting : Setting} (hsetting : setting ≠ .instructions) :
    valueOf? (withInstructions around other) setting =
      valueOf? (withInstructions around text) setting := by
  have hnone : ∀ text, valuesOf [.given .instructions text] setting = [] := by
    intro text
    simp [valuesOf, hsetting.symm]
  have hcons : ∀ text, withInstructions around text =
      around.1 ++ ([.given .instructions text] ++ around.2) := fun _ => rfl
  simp only [valueOf?_eq, hcons, valuesOf_append, hnone]

theorem isOn?_withInstructions (around : List Item × List Item) (text other : String)
    (switch : Switch) :
    isOn? (withInstructions around other) switch = isOn? (withInstructions around text) switch := by
  simp [isOn?, withInstructions]

theorem valueOf?_instructions {found : Option String}
    (h : valueOf? (withInstructions around text) .instructions = some found) :
    found = some text ∧
      valueOf? (withInstructions around other) .instructions = some (some other) := by
  have hvalues : ∀ text, valuesOf (withInstructions around text) .instructions =
      valuesOf around.1 .instructions ++ text :: valuesOf around.2 .instructions := by
    intro text
    simp [withInstructions, valuesOf]
  rw [valueOf?_eq, hvalues] at h ⊢
  generalize valuesOf around.1 .instructions = front at h ⊢
  generalize valuesOf around.2 .instructions = back at h ⊢
  cases front with
  | nil =>
      cases back with
      | nil =>
          cases h
          exact ⟨rfl, rfl⟩
      | cons value back => cases h
  | cons value front => cases front <;> cases h

/-- The program that these options spell out with these instructions. -/
def Options.inlineProgram (o : Options) (text : String) (initialId : StateId) : Program where
  name := "command line"
  tape := o.tape.getD ""
  instructions := text
  initialId := initialId
  separator := inferSeparator text

/-- The same options with other instructions. -/
def Options.withText (o : Options) (text : String) : Options :=
  { o with instructions := some text }

theorem ofItems?_withInstructions
    (ho : Options.ofItems? (withInstructions around text) = some o) (other : String) :
    o.instructions = some text ∧
      Options.ofItems? (withInstructions around other) = some (o.withText other) := by
  rw [ofItems?_eq_some_iff] at ho ⊢
  rcases ho with ⟨hprogram, hbuiltin, htape, hinstructions, hid, hseparator, hmaxSteps, hstdin,
    hlist, hdebug, hjson⟩
  rcases @valueOf?_instructions _ _ other _ hinstructions with ⟨htext, hother⟩
  refine ⟨htext, ?_⟩
  simp (disch := decide) only [isOn?_withInstructions around text other,
    valueOf?_withInstructions around text other]
  exact ⟨hprogram, hbuiltin, htape, hother, hid, hseparator, hmaxSteps, hstdin, hlist, hdebug,
    hjson⟩

/-- A consistent command line with instructions spells the program out. -/
theorem Options.request?_of_instructions (hone : o.isConsistent = true)
    (htext : o.instructions = some text) (hseparator : o.separator = none) :
    o.request? = o.initial.map fun initialId =>
      if o.list then .list
      else .run (.inline (o.inlineProgram text initialId)) (o.maxSteps.getD defaultBound)
        o.display := by
  rcases isConsistent_iff.1 hone with ⟨hprogram, hstdin, hbuiltin, -⟩
  have hnoProgram : o.program = none := by simpa [htext] using hprogram
  have hnoStdin : o.stdin = false := by simpa [htext] using hstdin
  have hnoBuiltin : o.builtin = none := by simpa [htext] using hbuiltin
  have hsource : o.source? =
      o.initial.map fun initialId => .inline (o.inlineProgram text initialId) := by
    simp [source?, inlineProgram, hnoProgram, hnoStdin, hnoBuiltin, htext, hseparator]
  rw [request?, hsource]
  cases o.initial <;> rfl

theorem Options.isConsistent_withText (htext : o.instructions = some text) (other : String) :
    (o.withText other).isConsistent = o.isConsistent := by
  simp [isConsistent, withText, htext]

theorem ofProgram_inlineProgram {members : List Instruction} (h : Reads text members)
    (hother : Reads other members) (initialId : StateId) :
    Machine.ofProgram (o.inlineProgram other initialId) =
      Machine.ofProgram (o.inlineProgram text initialId) := by
  simp only [Machine.ofProgram, Machine.ofTexts, Options.inlineProgram, TransitionTable.parse,
    parse_inferred h, parse_inferred hother]

end Exchange

/-! ## One report on all texts of the same instructions -/

/-- What is reported with these options. -/
def Options.report? (o : Options) (env : Environment) : Option Report :=
  if o.isConsistent then o.request?.map fun request => .of (request.output env) else none

/-- A command line with the instructions between other words. -/
def Spelling.commandLine (spelling : Spelling) (before after : List String) (text : String) :
    List String :=
  before ++ (spelling.words text ++ after)

/-- No separator is given, so far as the words can be read. -/
def GivesNoSeparator (words : List String) : Prop :=
  ∀ items, readWords? words = some items → ∀ value, .given .separator value ∉ items

section Reports

variable {words : List String} {items : List Item} {members : List Instruction}
  {text other : String} {o : Options}

theorem readRequest?_eq (hitems : readWords? words = some items) (hne : items ≠ []) :
    readRequest? words =
      (Options.ofItems? items).bind fun o => if o.isConsistent then o.request? else none := by
  have hempty : items.isEmpty = false := List.isEmpty_eq_false_iff.2 hne
  rw [readRequest?, hitems, Option.bind_eq_bind, Option.bind_some]
  cases Options.ofItems? items with
  | none => rfl
  | some o => cases hone : o.isConsistent <;> simp [hempty, hone]

theorem run?_eq (hitems : readWords? words = some items) (hne : items ≠ []) (env : Environment) :
    run? words env = (Options.ofItems? items).bind fun o => o.report? env := by
  rw [run?, readRequest?_eq hitems hne]
  cases Options.ofItems? items with
  | none => rfl
  | some o => cases hone : o.isConsistent <;> simp [Options.report?, hone]

theorem output_inline_eq (program : Program) (bound : Nat) (display : Display)
    (env : Environment) :
    Request.output (.run (.inline program) bound display) env =
      (Machine.ofProgram program).map fun m =>
        printRun (m.run bound).1 (m.run bound).2 display :=
  output_run_eq (.inline program) bound display env

theorem separator_eq_none (ho : Options.ofItems? items = some o)
    (hnone : ∀ value, .given .separator value ∉ items) : o.separator = none := by
  rcases ofItems?_eq_some_iff.1 ho with ⟨-, -, -, -, -, hseparator, -⟩
  exact (not_given_iff (bind_readValue?_some hseparator)).1 hnone

theorem Options.report?_withText (htext : o.instructions = some text)
    (hseparator : o.separator = none) (h : Reads text members) (hother : Reads other members)
    (env : Environment) : (o.withText other).report? env = o.report? env := by
  rw [report?, report?, isConsistent_withText htext]
  by_cases hone : o.isConsistent = true
  · have hone' : (o.withText other).isConsistent = true := by
      rw [isConsistent_withText htext, hone]
    rw [if_pos hone, if_pos hone, request?_of_instructions hone htext hseparator,
      request?_of_instructions hone' rfl hseparator]
    have hinitial : (o.withText other).initial = o.initial := rfl
    rw [hinitial, Option.map_map, Option.map_map]
    refine congrArg (o.initial.map ·) (funext fun initialId => ?_)
    cases hlist : o.list with
    | true => simp [withText, hlist]
    | false =>
        have houtput : ∀ bound display,
            Request.output (.run (.inline (o.inlineProgram other initialId)) bound display) env =
              Request.output (.run (.inline (o.inlineProgram text initialId)) bound display) env := by
          intro bound display
          rw [output_inline_eq, output_inline_eq, ofProgram_inlineProgram h hother]
        simp only [Function.comp_apply, withText, hlist]
        exact congrArg Report.of (houtput _ _)
  · rw [if_neg hone, if_neg hone]

/-- Two texts of the same instructions are interchangeable, whatever stands around them. -/
theorem run?_commandLine_eq {spelling : Spelling} {before after : List String}
    (hdigit : BeginsWithDigit text) (h : Reads text members) (hother : BeginsWithDigit other)
    (hsame : Reads other members)
    (hnone : GivesNoSeparator (spelling.commandLine before after text)) (env : Environment) :
    run? (spelling.commandLine before after other) env =
      run? (spelling.commandLine before after text) env := by
  -- The words are read alike, and the options that they make differ in the text alone.
  rcases exists_readWords?_around spelling after before with ⟨around, haround⟩
  have htextWords := haround text hdigit
  have hotherWords := haround other hother
  rw [← Spelling.commandLine] at htextWords hotherWords
  cases around with
  | none => simp [run?, readRequest?, htextWords, hotherWords]
  | some around =>
      rw [Option.map_some] at htextWords hotherWords
      have hne : ∀ text, withInstructions around text ≠ [] := by
        simp [withInstructions]
      rw [run?_eq htextWords (hne text), run?_eq hotherWords (hne other)]
      cases ho : Options.ofItems? (withInstructions around text) with
      | none =>
          -- What is wrong with the settings is not the text of the instructions.
          cases ho' : Options.ofItems? (withInstructions around other) with
          | none => rfl
          | some o =>
              rw [(ofItems?_withInstructions ho' text).2] at ho
              cases ho
      | some o =>
          rcases ofItems?_withInstructions ho other with ⟨htext, ho'⟩
          rw [ho', Option.bind_some, Option.bind_some]
          exact Options.report?_withText htext (separator_eq_none ho (hnone _ htextWords)) h hsame
            env

/-! ## The program that the words spell out -/

theorem exists_spelled {source : Source} {bound : Nat} {display : Display}
    (hitems : readWords? words = some items)
    (hrequest : readRequest? words = some (.run source bound display))
    (hgiven : .given .instructions text ∈ items)
    (hnone : ∀ value, .given .separator value ∉ items) :
    ∃ program, source = .inline program ∧ Spells items program ∧ program.instructions = text ∧
      program.separator = inferSeparator text := by
  rw [readRequest?_eq hitems (List.ne_nil_of_mem hgiven)] at hrequest
  rcases Option.bind_eq_some_iff.1 hrequest with ⟨o, ho, hchecked⟩
  rcases Option.ite_none_right_eq_some.1 hchecked with ⟨hone, hmade⟩
  rcases ofItems?_eq_some_iff.1 ho with ⟨-, -, -, hinstructions, -⟩
  have htext : o.instructions = some text := (given_mem_iff hinstructions text).1 hgiven
  have hseparator := separator_eq_none ho hnone
  rw [Options.request?_of_instructions hone htext hseparator] at hmade
  rcases Option.map_eq_some_iff.1 hmade with ⟨initialId, hinitial, hrun⟩
  have hprogram : source = .inline (o.inlineProgram text initialId) := by
    cases hlist : o.list <;> simp_all
  refine ⟨_, hprogram, ?_, rfl, rfl⟩
  refine (spells_iff ho).2 ⟨text, initialId, htext, hinitial, ?_⟩
  rw [hseparator]
  rfl

/-- A program is refused for its instructions if its tape is right and its separator can
cut a text. -/
theorem ofProgram_of_firstMalformed {program : Program} {segment : List Char}
    (htape : TapeForm program.tape) (hseparator : program.separator ≠ "")
    (h : FirstMalformed program.segments segment) :
    Machine.ofProgram program = .error (.malformedInstruction (String.ofList segment)) := by
  have hrefused : program.Refused (.malformedInstruction (String.ofList segment))
      .instructions := ⟨segment, h, rfl⟩
  have hunmet : program.FirstUnmet .instructions := Program.firstUnmet_iff.2
    ⟨htape, hseparator, Program.not_meets_of_refused_instructions hrefused⟩
  exact Program.ofProgram_eq_error_iff.2 ⟨.instructions, hunmet, hrefused⟩

theorem run?_of_unreadable {source : Source} {bound : Nat} {display : Display} {program : Program}
    (hrequest : readRequest? words = some (.run source bound display))
    (hsource : source = .inline program)
    (hseparator : program.separator = inferSeparator program.instructions)
    (htape : TapeForm program.tape) (hunreadable : ¬ ∃ members, Reads program.instructions members)
    (env : Environment) :
    ∃ segment, FirstMalformed program.segments segment ∧
      run? words env = some ⟨1, "",
        "Error: " ++ (Failure.malformedInstruction (String.ofList segment)).message⟩ := by
  rcases exists_firstMalformed hunreadable with ⟨segment, hsegment⟩
  rw [← hseparator] at hsegment
  have hne : program.separator ≠ "" := by
    rw [hseparator]
    exact inferSeparator_ne_empty _
  refine ⟨segment, hsegment, ?_⟩
  rw [run?, hrequest, Option.map_some, hsource, output_inline_eq,
    ofProgram_of_firstMalformed htape hne hsegment]
  rfl

end Reports

/-- If instructions are given without a separator and can be read with a newline or with
a semicolon between them, they are so read; otherwise the first segment that is no
instruction is reported.  Joining instructions in any of the three ways leads to one
report, whatever the other words are. -/
theorem inferred_separator_misreads_nothing :
    (∀ (words : List String) (items : List Item) (source : Source) (bound : Nat)
        (display : Display) (text : String),
      readWords? words = some items → readRequest? words = some (.run source bound display) →
      .given .instructions text ∈ items → (∀ value, .given .separator value ∉ items) →
      ∃ program, source = .inline program ∧ Spells items program ∧ program.instructions = text ∧
        (∀ members, Reads text members →
          parseInstructions text program.separator = .ok members) ∧
        ((¬ ∃ members, Reads text members) → TapeForm program.tape →
          ∀ env, ∃ segment, FirstMalformed program.segments segment ∧
            run? words env = some ⟨1, "",
              "Error: " ++ (Failure.malformedInstruction (String.ofList segment)).message⟩)) ∧
    (∀ (text : String) (members others : List Instruction),
      parseInstructions text "\n" = .ok members → parseInstructions text ";" = .ok others →
      members = others) ∧
    ∀ (members : List Instruction), members ≠ [] →
      ∀ (spelling : Spelling) (before after : List String) (joint other : Joint),
        GivesNoSeparator (spelling.commandLine before after (joint.join members)) →
        ∀ env, run? (spelling.commandLine before after (other.join members)) env =
          run? (spelling.commandLine before after (joint.join members)) env := by
  refine ⟨?_, ?_, ?_⟩
  · intro words items source bound display text hitems hrequest hgiven hnone
    rcases exists_spelled hitems hrequest hgiven hnone with
      ⟨program, hsource, hspells, rfl, hseparator⟩
    refine ⟨program, hsource, hspells, rfl, ?_, ?_⟩
    · intro members hreads
      rw [hseparator]
      exact parse_inferred hreads
    · intro hunreadable htape env
      exact run?_of_unreadable hrequest hsource hseparator htape hunreadable env
  · intro text members others hlines hsemicolons
    exact reads_unique (.inl hlines) (.inr hsemicolons)
  · intro members hnil spelling before after joint other hnone env
    exact run?_commandLine_eq (joint.beginsWithDigit_join hnil) (joint.reads_join hnil)
      (other.beginsWithDigit_join hnil) (other.reads_join hnil) hnone env

/-- A text with both separators is cut into lines and refused for the first of them; two
instructions run on two lines as they do on one. -/
theorem inferred_separator_of_mixed_text_and_two_lines :
    (∀ env, ∃ segment, FirstMalformed ["0,0,1,0;1,0,R,1".toList, "0,1,R,1".toList] segment ∧
      run? ["--instructions=0,0,1,0;1,0,R,1\n0,1,R,1", "--initial=0"] env = some ⟨1, "",
        "Error: " ++ (Failure.malformedInstruction (String.ofList segment)).message⟩) ∧
    parseInstructions "0,0,1,0;0,1,R,0" ";" =
      parseInstructions "0,0,1,0;0,1,R,0" (inferSeparator "0,0,1,0;0,1,R,0") ∧
    ∀ env, run? ["-di0,0,1,0;0,1,R,0", "--initial", "0"] env =
      run? ["-di0,0,1,0\r\n0,1,R,0", "--initial", "0"] env := by
  rcases inferred_separator_misreads_nothing with ⟨hread, -, hjoin⟩
  refine ⟨?_, ?_, ?_⟩
  · have hlines : parseInstructions "0,0,1,0;1,0,R,1\n0,1,R,1" "\n" =
        .error (.malformedInstruction "0,0,1,0;1,0,R,1") := rfl
    have hsemicolons : parseInstructions "0,0,1,0;1,0,R,1\n0,1,R,1" ";" =
        .error (.malformedInstruction "1,0,R,1\n0,1,R,1") := rfl
    have hnone : ¬ ∃ members, Reads "0,0,1,0;1,0,R,1\n0,1,R,1" members := by
      rintro ⟨members, h⟩
      rw [Reads, hlines, hsemicolons] at h
      simp at h
    rcases hread ["--instructions=0,0,1,0;1,0,R,1\n0,1,R,1", "--initial=0"] _ _ _ _ _ rfl rfl
        List.mem_cons_self (by simp) with ⟨program, hsource, -, -, -, hfails⟩
    cases hsource
    exact hfails hnone (.inr (by simp))
  · have hreads : parseInstructions "0,0,1,0;0,1,R,0" ";" =
        .ok [⟨StateId.ofNat 0, .zero, .write .one, StateId.ofNat 0⟩,
          ⟨StateId.ofNat 0, .one, .move .right, StateId.ofNat 0⟩] := rfl
    rcases hread ["--instructions=0,0,1,0;0,1,R,0", "--initial=0"] _ _ _ _ _ rfl rfl
        List.mem_cons_self (by simp) with ⟨program, hsource, -, -, hparses, -⟩
    cases hsource
    rw [hreads]
    exact (hparses _ (.inr hreads)).symm
  · exact hjoin [⟨StateId.ofNat 0, .zero, .write .one, StateId.ofNat 0⟩,
      ⟨StateId.ofNat 0, .one, .move .right, StateId.ofNat 0⟩] (List.cons_ne_nil _ _) (.short [.d])
      [] ["--initial", "0"] .crlf .semicolon (by
        intro items hitems
        cases hitems
        simp)

end CommandLine

end BinaryMachine
