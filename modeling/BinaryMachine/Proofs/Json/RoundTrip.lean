import BinaryMachine.Json.Instruction
import BinaryMachine.Proofs.Json.Record
import BinaryMachine.Proofs.Machine.Construction

/-!
# Values and their JSON texts

What is written for a value is read back as that value, and so is what is
written for a value that was read.  A program that has been loaded is loaded from
its own text again, unless that text has become too long.
-/

namespace BinaryMachine

open Json (Token IsValue isValue_text isValue_object)

/-! ## Ways to write and to read -/

/-- How the values of a type are written as tokens and read from them. -/
structure Codec (α : Type) where
  toTokens : α → List Token
  ofTokens : List Token → Except ReadFault α

namespace Codec

variable {α : Type}

def write (codec : Codec α) (a : α) : String :=
  Json.compact (codec.toTokens a)

def read (codec : Codec α) (text : String) : Except ReadFault α :=
  codec.ofTokens (Json.scan text)

def rewrite (codec : Codec α) (text : String) : Except ReadFault String :=
  (codec.read text).map codec.write

/-- Reading undoes writing, and a text that has been rewritten stays as it is. -/
structure Inverse (codec : Codec α) : Prop where
  read_write : ∀ a, codec.read (codec.write a) = .ok a
  rewrite_rewrite : ∀ text text', codec.rewrite text = .ok text' → codec.rewrite text' = .ok text'

theorem inverse_of_tokens {codec : Codec α} (hvalue : ∀ a, IsValue (codec.toTokens a))
    (htokens : ∀ a, codec.ofTokens (codec.toTokens a) = .ok a) : codec.Inverse := by
  have hread : ∀ a, codec.read (codec.write a) = .ok a := by
    intro a
    rw [read, write, Json.scan_compact (hvalue a).endsItself, htokens]
  refine ⟨hread, ?_⟩
  intro text text' hrewrite
  cases hvalue : codec.read text with
  | error fault =>
      rw [rewrite, hvalue] at hrewrite
      cases hrewrite
  | ok a =>
      rw [rewrite, hvalue] at hrewrite
      cases hrewrite
      rw [rewrite, hread]
      rfl

end Codec

/-! ## Values -/

theorem Action.exists_toTokens_eq (action : Action) :
    ∃ name content, action.toTokens = Json.object [(name, [.text content])] := by
  cases action with
  | write symbol => exact ⟨"Write", symbol.name, rfl⟩
  | move direction => exact ⟨"Move", direction.name, rfl⟩

theorem Action.isValue_toTokens (action : Action) : IsValue action.toTokens := by
  obtain ⟨name, content, htokens⟩ := action.exists_toTokens_eq
  rw [htokens]
  apply isValue_object
  simpa using isValue_text content

namespace Instruction

theorem field?_label (field : Field) : form.field? (form.label field) = some field := by
  cases field <;> rfl

def fieldTokens (i : Instruction) : List (Field × List Token) :=
  [(.id, i.id.toTokens), (.condition, i.condition.toTokens), (.action, i.action.toTokens),
    (.next, i.next.toTokens)]

theorem isValue_fieldTokens (i : Instruction) : ∀ m ∈ i.fieldTokens, IsValue m.2 := by
  simp only [fieldTokens, List.forall_mem_cons]
  exact ⟨isValue_text _, isValue_text _, i.action.isValue_toTokens, isValue_text _, nofun⟩

theorem toTokens_eq_object (i : Instruction) :
    i.toTokens = Json.object (form.labelled i.fieldTokens) := rfl

theorem putEach_fieldTokens (i : Instruction) :
    form.putEach form.empty i.fieldTokens =
      .ok ⟨some i.id, some i.condition, some i.action, some i.next⟩ := by
  simp [fieldTokens, Json.Form.putEach, form, Draft.holds, Draft.put, StateId.ofTokens_toTokens,
    Symbol.ofTokens_toTokens, Action.ofTokens_toTokens, Except.map]

theorem isValue_toTokens (i : Instruction) : IsValue i.toTokens := by
  rw [toTokens_eq_object]
  exact isValue_object (form.forall_labelled i.isValue_fieldTokens)

theorem ofTokens_toTokens (i : Instruction) : ofTokens i.toTokens = .ok i := by
  have hne : i.fieldTokens ≠ [] := List.cons_ne_nil _ _
  rw [ofTokens, toTokens_eq_object, Json.Form.read_object field?_label hne i.isValue_fieldTokens,
    putEach_fieldTokens]
  rfl

end Instruction

namespace Program

theorem field?_label (field : Field) : form.field? (form.label field) = some field := by
  cases field <;> rfl

def fieldTokens (p : Program) : List (Field × List Token) :=
  [(.name, [.text p.name]), (.tape, [.text p.tape]), (.instructions, [.text p.instructions]),
    (.initialId, p.initialId.toTokens), (.separator, [.text p.separator])]

theorem isValue_fieldTokens (p : Program) : ∀ m ∈ p.fieldTokens, IsValue m.2 := by
  simp only [fieldTokens, List.forall_mem_cons]
  exact ⟨isValue_text _, isValue_text _, isValue_text _, isValue_text _, isValue_text _, nofun⟩

theorem toTokens_eq_object (p : Program) :
    p.toTokens = Json.object (form.labelled p.fieldTokens) := rfl

theorem putEach_fieldTokens (p : Program) :
    form.putEach form.empty p.fieldTokens =
      .ok ⟨some p.name, some p.tape, some p.instructions, some p.initialId, some p.separator⟩ := by
  simp [fieldTokens, Json.Form.putEach, form, Draft.holds, Draft.put, Json.stringValue,
    StateId.ofTokens_toTokens, Except.map]

theorem isValue_toTokens (p : Program) : IsValue p.toTokens := by
  rw [toTokens_eq_object]
  exact isValue_object (form.forall_labelled p.isValue_fieldTokens)

theorem ofTokens_toTokens (p : Program) : ofTokens p.toTokens = .ok p := by
  have hne : p.fieldTokens ≠ [] := List.cons_ne_nil _ _
  rw [ofTokens, toTokens_eq_object, Json.Form.read_object field?_label hne p.isValue_fieldTokens,
    putEach_fieldTokens]
  rfl

theorem codec_inverse : (Codec.mk toTokens ofTokens).Inverse :=
  Codec.inverse_of_tokens isValue_toTokens ofTokens_toTokens

theorem ofJson_toJson (p : Program) : ofJson p.toJson = .ok p :=
  codec_inverse.read_write p

theorem load_toJson {text : String} {program : Program} (h : load text = .ok program)
    (hsize : program.toJson.utf8ByteSize ≤ 65536) : load program.toJson = .ok program := by
  obtain ⟨-, -, hmachine⟩ := load_eq_ok_iff.1 h
  exact load_eq_ok_iff.2 ⟨hsize, program.ofJson_toJson, hmachine⟩

end Program

theorem json_text_inverse :
    (Codec.mk StateId.toTokens StateId.ofTokens).Inverse ∧
    (Codec.mk Symbol.toTokens Symbol.ofTokens).Inverse ∧
    (Codec.mk Direction.toTokens Direction.ofTokens).Inverse ∧
    (Codec.mk Action.toTokens Action.ofTokens).Inverse ∧
    (Codec.mk Status.toTokens Status.ofTokens).Inverse ∧
    (Codec.mk Instruction.toTokens Instruction.ofTokens).Inverse ∧
    (Codec.mk Program.toTokens Program.ofTokens).Inverse ∧
    ∀ text program, Program.load text = .ok program →
      program.toJson.utf8ByteSize ≤ 65536 → Program.load program.toJson = .ok program := by
  refine ⟨?_, ?_, ?_, ?_, ?_, ?_, Program.codec_inverse, fun _ _ => Program.load_toJson⟩
  · exact Codec.inverse_of_tokens (fun _ => isValue_text _) StateId.ofTokens_toTokens
  · exact Codec.inverse_of_tokens (fun _ => isValue_text _) Symbol.ofTokens_toTokens
  · exact Codec.inverse_of_tokens (fun _ => isValue_text _) Direction.ofTokens_toTokens
  · exact Codec.inverse_of_tokens Action.isValue_toTokens Action.ofTokens_toTokens
  · exact Codec.inverse_of_tokens (fun _ => isValue_text _) Status.ofTokens_toTokens
  · exact Codec.inverse_of_tokens Instruction.isValue_toTokens Instruction.ofTokens_toTokens

end BinaryMachine
