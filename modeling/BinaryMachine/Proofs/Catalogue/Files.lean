import BinaryMachine.Proofs.Json.Ids
import BinaryMachine.Proofs.Json.Pretty

/-!
# The files of the built-in programs

A file gives the initial id as a number and leaves a separator out that is the default
one.  Neither is lost on the way back, so what is loaded from the files are the
built-in programs in their order.
-/

namespace BinaryMachine

open Json (Token Grammatical Lexeme Spells)

namespace Catalogue

/-! ## What a file holds -/

def membersBefore (program : Program) : List (String × List Token) :=
  [("name", [.text program.name]), ("tape", [.text program.tape]),
    ("instructions", [.text program.instructions])]

def membersBehind (program : Program) : List (String × List Token) :=
  if program.separator = defaultSeparator then [] else [("separator", [.text program.separator])]

/-- The initial id stands between the other members. -/
def members (program : Program) (id : List Token) : List (String × List Token) :=
  membersBefore program ++ ("initial_id", id) :: membersBehind program

theorem fileText_eq (program : Program) :
    fileText program =
      Json.pretty (Json.object (members program [.number program.initialId.text])) ++ "\n" := rfl

example : fileText unaryAddition =
    "\x7b\n  \"name\": \"Unary Addition\",\n  \"tape\": \"11011\",\n" ++
      "  \"instructions\": \"0,1,R,0\\n0,0,1,1\\n1,1,R,1\\n1,0,L,2\\n2,1,0,3\",\n" ++
      "  \"initial_id\": 0\n\x7d\n" := by
  decide +kernel

/-- All members but the initial id are texts. -/
theorem forall_mem_members {P : List Token → Prop} (htext : ∀ content, P [.text content])
    {id : List Token} (hid : P id) (program : Program) : ∀ m ∈ members program id, P m.2 := by
  have hbehind : ∀ m ∈ membersBehind program, P m.2 := by
    unfold membersBehind
    split
    · exact List.forall_mem_nil _
    · exact List.forall_mem_singleton.2 (htext _)
  simp only [members, membersBefore, List.forall_mem_append, List.forall_mem_cons]
  exact ⟨⟨htext _, htext _, htext _, List.forall_mem_nil _⟩, hid, hbehind⟩

theorem spells_fileText {program : Program} {n : Nat} (hid : program.initialId = .ofNat n) :
    Spells (fileText program) (Json.object (members program [.number (toString n)])) := by
  have hnewline : ∀ c ∈ "\n".toList, Json.isBlank c = true := by
    simp [Json.isBlank]
  have htext : ∀ content, ∀ token ∈ [Token.text content],
      Lexeme token token.spelling.toList := fun content =>
    List.forall_mem_singleton.2 (Json.lexeme_spelling_of_endsItself rfl)
  have hnumber : ∀ token ∈ [Token.number (toString n)], Lexeme token token.spelling.toList :=
    List.forall_mem_singleton.2 (Json.lexeme_spelling_number n)
  rw [fileText_eq, hid, StateId.text_ofNat]
  apply Json.spells_of_spaced _ _ (Json.spaced_pretty_append _ hnewline)
  · exact .object (forall_mem_members .text (.number _) program)
  · apply Json.forall_mem_object fun _ => Json.lexeme_spelling_of_endsItself
    exact forall_mem_members (P := fun value => ∀ token ∈ value, Lexeme token token.spelling.toList)
      htext hnumber program

/-! ## Reading a file -/

theorem ofTokens_members (program : Program) :
    Program.ofTokens (Json.object (members program program.initialId.toTokens)) = .ok program := by
  by_cases hdefault : program.separator = defaultSeparator
  · let fields : List (Program.Field × List Token) :=
      [(.name, [.text program.name]), (.tape, [.text program.tape]),
        (.instructions, [.text program.instructions]), (.initialId, program.initialId.toTokens)]
    have hmembers : members program program.initialId.toTokens = Program.form.labelled fields := by
      rw [members, membersBehind, if_pos hdefault]
      rfl
    have hvalues : ∀ m ∈ fields, Json.IsValue m.2 := by
      simp only [fields, List.forall_mem_cons]
      exact ⟨Json.isValue_text _, Json.isValue_text _, Json.isValue_text _, Json.isValue_text _,
        List.forall_mem_nil _⟩
    have hput : Program.form.putEach Program.form.empty fields =
        .ok ⟨some program.name, some program.tape, some program.instructions,
          some program.initialId, none⟩ := by
      simp [fields, Json.Form.putEach, Program.form, Program.Draft.holds, Program.Draft.put,
        Json.stringValue, StateId.ofTokens_toTokens, Except.map]
    rw [Program.ofTokens, hmembers,
      Json.Form.read_object Program.field?_label (List.cons_ne_nil _ _) hvalues, hput]
    change Except.ok _ = _
    rw [Option.getD_none, ← hdefault]
    rfl
  · have hmembers : members program program.initialId.toTokens =
        Program.form.labelled program.fieldTokens := by
      rw [members, membersBehind, if_neg hdefault]
      rfl
    rw [hmembers, ← Program.toTokens_eq_object, Program.ofTokens_toTokens]

theorem ofJson_fileText {program : Program} {n : Nat} (hid : program.initialId = .ofNat n)
    (hn : n ≤ 2 ^ 64 - 1) : Program.ofJson (fileText program) = .ok program := by
  have hbefore : ∀ m ∈ membersBefore program, Grammatical m.2 := by
    intro m hm
    exact forall_mem_members .text (.number (toString n)) program m (List.mem_append_left _ hm)
  have hread := ofTokens_members program
  rw [hid, StateId.toTokens, StateId.text_ofNat] at hread
  rw [Program.ofJson, (spells_fileText hid).scan_eq, members,
    (Program.GivenEitherWay.object hbefore (membersBehind program)).ofTokens_eq hn]
  exact hread

/-! ## Loading the files -/

theorem exists_initialId_eq : ∀ program ∈ programs,
    ∃ n ≤ 2 ^ 64 - 1, program.initialId = .ofNat n := by
  simp only [programs, List.forall_mem_cons]
  exact ⟨⟨1, by decide, rfl⟩, ⟨0, by decide, rfl⟩, ⟨0, by decide, rfl⟩, ⟨0, by decide, rfl⟩,
    List.forall_mem_nil _⟩

theorem utf8ByteSize_fileText_le : ∀ program ∈ programs,
    (fileText program).utf8ByteSize ≤ 134 := by
  decide +kernel

theorem load_fileText {program : Program} (h : program ∈ programs) :
    Program.load (fileText program) = .ok program := by
  rcases exists_initialId_eq program h with ⟨n, hn, hid⟩
  have hsize : (fileText program).utf8ByteSize ≤ 65536 :=
    (utf8ByteSize_fileText_le program h).trans (by omega)
  exact Program.load_eq_ok_iff.2 ⟨hsize, ofJson_fileText hid hn, exists_ofProgram program h⟩

/-- Loading all of the files gives the catalogue. -/
theorem mapM_load_fileText : (programs.map fileText).mapM Program.load = .ok programs :=
  mapM_map_eq_pure programs fun _ h => load_fileText h

/-- A program is found under an index just if it is loaded from the text there. -/
theorem byIndex_eq_ok_iff {index : Nat} {program : Program} :
    byIndex index = .ok program ↔
      ∃ text, textAt index = .ok text ∧ Program.load text = .ok program := by
  unfold byIndex textAt
  cases hat : programs[index]? with
  | none => simp
  | some listed => simp [load_fileText (List.mem_of_getElem? hat)]

end Catalogue

end BinaryMachine
