import Mathlib.Data.List.Basic
import BinaryMachine.Json.Form
import BinaryMachine.Proofs.Json.Scanning

/-!
# Reading a record that was written

Passing over a value depends on the brackets that are open around it only by
coming back to them.  So an object is one value if its members are, however deep
it lies.  A record is then read back member by member: every key names its field,
every value is put once, and what is put in the end is the record.
-/

namespace BinaryMachine.Json

/-! ## Whole values -/

/-- How it goes on behind a value: it is complete if no bracket is open. -/
def passOn? (brackets : List Bracket) (passed tokens : List Token) :
    Option (List Token × List Token) :=
  if brackets = [] then
    some (passed.reverse, tokens)
  else
    passValue? ⟨brackets, .separator⟩ passed tokens

/-- The tokens are one value wherever a value may stand. -/
def Passes (value : List Token) : Prop :=
  ∀ brackets passed rest,
    passValue? ⟨brackets, .value⟩ passed (value ++ rest) =
      passOn? brackets (value.reverse ++ passed) rest

theorem Passes.value?_eq {value : List Token} (h : Passes value) (rest : List Token) :
    value? (value ++ rest) = some (value, rest) := by
  rw [value?, Place.start, h, passOn?, if_pos rfl, List.append_nil, List.reverse_reverse]

/-- The tokens are one value wherever a value may stand, and fall out of the
text without blanks that is written for them. -/
structure IsValue (value : List Token) : Prop where
  passValue?_eq : ∀ brackets passed rest,
    passValue? ⟨brackets, .value⟩ passed (value ++ rest) =
      passOn? brackets (value.reverse ++ passed) rest
  endsItself : ∀ token ∈ value, token.endsItself = true

theorem IsValue.passes {value : List Token} (h : IsValue value) : Passes value :=
  h.passValue?_eq

theorem passValue?_cons {place next : Place} {token : Token} (h : place.next? token = some next)
    (passed tokens : List Token) :
    passValue? place passed (token :: tokens) =
      if next.isEnd then some ((token :: passed).reverse, tokens)
      else passValue? next (token :: passed) tokens := by
  rw [passValue?, h]

theorem passValue?_cons_separator {place : Place} {token : Token} {brackets : List Bracket}
    (h : place.next? token = some ⟨brackets, .separator⟩) (passed tokens : List Token) :
    passValue? place passed (token :: tokens) = passOn? brackets (token :: passed) tokens := by
  rw [passValue?_cons h, passOn?]
  cases brackets <;> simp [Place.isEnd]

theorem passValue?_cons_inside {place : Place} {token : Token} {bracket : Bracket}
    {brackets : List Bracket} {expected : Expected}
    (h : place.next? token = some ⟨bracket :: brackets, expected⟩) (passed tokens : List Token) :
    passValue? place passed (token :: tokens) =
      passValue? ⟨bracket :: brackets, expected⟩ (token :: passed) tokens := by
  rw [passValue?_cons h]
  simp [Place.isEnd]

theorem isValue_text (content : String) : IsValue [.text content] where
  passValue?_eq := fun _ _ _ => passValue?_cons_separator rfl _ _
  endsItself := by simp [Token.endsItself]

theorem commaSeparated_cons_cons (part next : List Token) (parts : List (List Token)) :
    commaSeparated (part :: next :: parts) =
      part ++ .comma :: commaSeparated (next :: parts) := by
  simp [commaSeparated]

theorem forall_mem_commaSeparated {P : Token → Prop} (hcomma : P .comma)
    {parts : List (List Token)} (h : ∀ part ∈ parts, ∀ token ∈ part, P token) :
    ∀ token ∈ commaSeparated parts, P token := by
  induction parts with
  | nil => exact nofun
  | cons part parts ih =>
      rw [List.forall_mem_cons] at h
      cases parts with
      | nil => simpa [commaSeparated] using h.1
      | cons next parts =>
          rw [commaSeparated_cons_cons, List.forall_mem_append, List.forall_mem_cons]
          exact ⟨h.1, hcomma, ih h.2⟩

def member (key : String) (value : List Token) : List Token :=
  .text key :: .colon :: value

/-- The key of a first member may stand where the brace might be closed instead. -/
theorem passValue?_member {expected : Expected} (hexpected : expected = .member ∨ expected = .key)
    {value : List Token} (hvalue : Passes value) (brackets : List Bracket) (key : String)
    (passed rest : List Token) :
    passValue? ⟨.object :: brackets, expected⟩ passed (member key value ++ rest) =
      passValue? ⟨.object :: brackets, .separator⟩ ((member key value).reverse ++ passed) rest := by
  have hkey : Place.next? ⟨.object :: brackets, expected⟩ (.text key) =
      some ⟨.object :: brackets, .colon⟩ := by
    rcases hexpected with rfl | rfl <;> rfl
  simp only [member, List.cons_append]
  rw [passValue?_cons_inside hkey, passValue?_cons_inside rfl, hvalue, passOn?,
    if_neg (List.cons_ne_nil _ _)]
  simp

def membersTokens (members : List (String × List Token)) : List Token :=
  commaSeparated (members.map fun m => member m.1 m.2)

theorem object_eq (members : List (String × List Token)) :
    object members = .openBrace :: membersTokens members ++ [.closeBrace] := rfl

theorem membersTokens_cons_cons (m next : String × List Token)
    (members : List (String × List Token)) :
    membersTokens (m :: next :: members) =
      member m.1 m.2 ++ .comma :: membersTokens (next :: members) := by
  simp [membersTokens, commaSeparated]

theorem membersTokens_singleton (m : String × List Token) :
    membersTokens [m] = member m.1 m.2 := by
  simp [membersTokens, commaSeparated]

theorem passValue?_membersTokens (brackets : List Bracket) (rest : List Token)
    (members : List (String × List Token)) :
    ∀ {expected : Expected} {m : String × List Token} (passed : List Token),
      expected = .member ∨ expected = .key → (∀ m' ∈ m :: members, Passes m'.2) →
      passValue? ⟨.object :: brackets, expected⟩ passed
          (membersTokens (m :: members) ++ rest) =
        passValue? ⟨.object :: brackets, .separator⟩
          ((membersTokens (m :: members)).reverse ++ passed) rest := by
  induction members with
  | nil =>
      intro expected m passed hexpected hvalues
      rw [membersTokens_singleton, passValue?_member hexpected (hvalues m List.mem_cons_self)]
  | cons next members ih =>
      intro expected m passed hexpected hvalues
      rw [List.forall_mem_cons] at hvalues
      rw [membersTokens_cons_cons, List.append_assoc, passValue?_member hexpected hvalues.1,
        List.cons_append, passValue?_cons_inside rfl, ih _ (.inr rfl) hvalues.2]
      simp

theorem passes_object {members : List (String × List Token)} (h : ∀ m ∈ members, Passes m.2) :
    Passes (object members) := by
  intro brackets passed rest
  rw [object_eq, List.append_assoc, List.cons_append, passValue?_cons_inside rfl]
  cases members with
  | nil => exact passValue?_cons_separator rfl _ _
  | cons m members =>
      rw [passValue?_membersTokens brackets _ members _ (.inl rfl) h, List.singleton_append,
        passValue?_cons_separator rfl]
      simp

/-- A first element may stand where the bracket might be closed instead. -/
theorem passValue?_element {expected : Expected}
    (hexpected : expected = .element ∨ expected = .value)
    {value : List Token} (hvalue : Passes value) (brackets : List Bracket)
    (passed rest : List Token) :
    passValue? ⟨.array :: brackets, expected⟩ passed (value ++ rest) =
      passValue? ⟨.array :: brackets, .separator⟩ (value.reverse ++ passed) rest := by
  have hread := hvalue (.array :: brackets) passed rest
  rw [passOn?, if_neg (List.cons_ne_nil _ _)] at hread
  rcases hexpected with rfl | rfl
  · have hwhole := hvalue.value?_eq []
    cases value with
    | nil => contradiction
    | cons token value =>
        have hnext : Place.next? ⟨.array :: brackets, .element⟩ token =
            Place.next? ⟨.array :: brackets, .value⟩ token := by
          cases token with
          | closeBracket => contradiction
          | _ => rfl
        rw [List.cons_append, passValue?] at hread ⊢
        rw [hnext, hread]
  · exact hread

theorem passValue?_commaSeparated (brackets : List Bracket) (rest : List Token)
    (elements : List (List Token)) :
    ∀ {expected : Expected} {value : List Token} (passed : List Token),
      expected = .element ∨ expected = .value → (∀ v ∈ value :: elements, Passes v) →
      passValue? ⟨.array :: brackets, expected⟩ passed
          (commaSeparated (value :: elements) ++ rest) =
        passValue? ⟨.array :: brackets, .separator⟩
          ((commaSeparated (value :: elements)).reverse ++ passed) rest := by
  induction elements with
  | nil =>
      intro expected value passed hexpected hvalues
      rw [commaSeparated, List.intercalate_singleton,
        passValue?_element hexpected (hvalues value List.mem_cons_self)]
  | cons next elements ih =>
      intro expected value passed hexpected hvalues
      rw [List.forall_mem_cons] at hvalues
      rw [commaSeparated_cons_cons, List.append_assoc, passValue?_element hexpected hvalues.1,
        List.cons_append, passValue?_cons_inside rfl, ih _ (.inr rfl) hvalues.2]
      simp

theorem passes_array {elements : List (List Token)} (h : ∀ value ∈ elements, Passes value) :
    Passes (array elements) := by
  intro brackets passed rest
  rw [array, List.append_assoc, List.cons_append, passValue?_cons_inside rfl]
  cases elements with
  | nil => exact passValue?_cons_separator rfl _ _
  | cons value elements =>
      rw [passValue?_commaSeparated brackets _ elements _ (.inl rfl) h, List.singleton_append,
        passValue?_cons_separator rfl]
      simp

/-- Brackets, commas, colons and keys are what an object or an array adds to the values
in it, and each of these ends itself. -/
theorem forall_mem_object {P : Token → Prop} (hends : ∀ token, token.endsItself = true → P token)
    {members : List (String × List Token)} (h : ∀ m ∈ members, ∀ token ∈ m.2, P token) :
    ∀ token ∈ object members, P token := by
  have hmembers : ∀ token ∈ membersTokens members, P token := by
    apply forall_mem_commaSeparated (hends .comma rfl)
    rw [List.forall_mem_map]
    intro m hm
    rw [member, List.forall_mem_cons, List.forall_mem_cons]
    exact ⟨hends _ rfl, hends _ rfl, h m hm⟩
  rw [object_eq, List.forall_mem_append, List.forall_mem_cons, List.forall_mem_singleton]
  exact ⟨⟨hends _ rfl, hmembers⟩, hends _ rfl⟩

theorem forall_mem_array {P : Token → Prop} (hends : ∀ token, token.endsItself = true → P token)
    {elements : List (List Token)} (h : ∀ value ∈ elements, ∀ token ∈ value, P token) :
    ∀ token ∈ array elements, P token := by
  rw [array, List.forall_mem_append, List.forall_mem_cons, List.forall_mem_singleton]
  exact ⟨⟨hends _ rfl, forall_mem_commaSeparated (hends _ rfl) h⟩, hends _ rfl⟩

theorem isValue_object {members : List (String × List Token)}
    (h : ∀ m ∈ members, IsValue m.2) : IsValue (object members) where
  passValue?_eq := passes_object fun m hm => (h m hm).passes
  endsItself := forall_mem_object (fun _ hends => hends) fun m hm => (h m hm).endsItself

/-! ## Records -/

namespace Form

variable {Field Draft Record : Type}

/-- Puts the values of the members one after another, each in a place of its own. -/
def putEach (form : Form Field Draft Record) (draft : Draft) :
    List (Field × List Token) → Except ReadFault Draft
  | [] => .ok draft
  | (field, value) :: members =>
      if form.holds draft field then
        .error (.duplicateField (form.label field))
      else
        match form.put draft field value with
        | .error fault => .error fault
        | .ok draft => putEach form draft members

def labelled (form : Form Field Draft Record) (members : List (Field × List Token)) :
    List (String × List Token) :=
  members.map fun m => (form.label m.1, m.2)

theorem forall_labelled (form : Form Field Draft Record) {P : List Token → Prop}
    {members : List (Field × List Token)} (h : ∀ m ∈ members, P m.2) :
    ∀ m ∈ form.labelled members, P m.2 := by
  rw [labelled, List.forall_mem_map]
  exact h

variable {form : Form Field Draft Record}

theorem keyed?_value {value : List Token} (h : Passes value) (rest : List Token) :
    keyed? (.colon :: (value ++ rest)) = some (value, rest) := h.value?_eq rest

/-- Behind a member the object is closed or goes on. -/
def readOn (form : Form Field Draft Record) (draft : Draft) :
    List Token → Except ReadFault (Draft × List Token)
  | .closeBrace :: rest => .ok (draft, rest)
  | .comma :: rest => form.readMembers draft rest
  | _ => .error .malformed

/-- One member is put, whatever its key, and then it is read on. -/
theorem readMembers_keyed (form : Form Field Draft Record) (draft : Draft) (key : String)
    {value : List Token} (hvalue : Passes value) (rest : List Token) :
    form.readMembers draft (member key value ++ rest) =
      form.checkKey draft key >>= fun field =>
        form.putMember draft value field >>= fun draft => form.readOn draft rest := by
  simp only [member, List.cons_append]
  rw [readMembers]
  cases form.checkKey draft key with
  | error fault => rfl
  | ok field =>
      dsimp only [Bind.bind, Except.bind]
      split
      · next hkeyed =>
          rw [keyed?_value hvalue rest] at hkeyed
          contradiction
      · next hkeyed =>
          rw [keyed?_value hvalue rest] at hkeyed
          cases hkeyed
          cases form.putMember draft value field with
          | error fault => rfl
          | ok draft =>
              rcases rest with _ | ⟨token, rest⟩
              · rfl
              · cases token <;> rfl

/-- One member is put, and then the object is closed or goes on. -/
theorem readMembers_member (hlabel : ∀ field, form.field? (form.label field) = some field)
    (draft : Draft) (field : Field) {value : List Token} (hvalue : IsValue value)
    (rest : List Token) :
    form.readMembers draft (member (form.label field) value ++ rest) =
      if form.holds draft field then
        .error (.duplicateField (form.label field))
      else
        form.put draft field value >>= fun draft => form.readOn draft rest := by
  rw [readMembers_keyed form draft _ hvalue.passes, checkKey, hlabel]
  by_cases hholds : form.holds draft field = true
  · simp only [if_pos hholds]
    rfl
  · simp only [if_neg hholds]
    rfl

theorem readMembers_eq_putEach (hlabel : ∀ field, form.field? (form.label field) = some field)
    (rest : List Token) (members : List (Field × List Token)) :
    ∀ (draft : Draft) (m : Field × List Token), (∀ m' ∈ m :: members, IsValue m'.2) →
      form.readMembers draft
          (membersTokens (form.labelled (m :: members)) ++ .closeBrace :: rest) =
        (form.putEach draft (m :: members)).map fun draft => (draft, rest) := by
  induction members with
  | nil =>
      rintro draft ⟨field, value⟩ hvalues
      simp only [labelled, List.map_cons, List.map_nil, putEach, membersTokens_singleton]
      rw [readMembers_member hlabel draft field (hvalues _ List.mem_cons_self)]
      by_cases hholds : form.holds draft field = true
      · simp only [if_pos hholds]
        rfl
      · simp only [if_neg hholds]
        cases form.put draft field value <;> rfl
  | cons next members ih =>
      rintro draft ⟨field, value⟩ hvalues
      rw [List.forall_mem_cons] at hvalues
      have hnext := fun draft => ih draft next hvalues.2
      simp only [labelled, List.map_cons] at hnext ⊢
      rw [membersTokens_cons_cons, List.append_assoc,
        readMembers_member hlabel draft field hvalues.1, putEach]
      by_cases hholds : form.holds draft field = true
      · simp only [if_pos hholds]
        rfl
      · simp only [if_neg hholds]
        cases form.put draft field value with
        | error fault => rfl
        | ok draft => exact hnext draft

theorem membersTokens_cons (m : String × List Token) (members : List (String × List Token)) :
    ∃ tokens, membersTokens (m :: members) = .text m.1 :: tokens := by
  cases members with
  | nil => exact ⟨_, membersTokens_singleton m⟩
  | cons next members => exact ⟨_, membersTokens_cons_cons m next members⟩

/-- An object that is not empty starts with a key. -/
theorem read_object_of_ne_nil (form : Form Field Draft Record)
    {members : List (String × List Token)} (hne : members ≠ []) :
    form.read (object members) =
      form.readMembers form.empty (membersTokens members ++ [.closeBrace]) >>=
        fun read => form.finishObject read.1 >>= fun record => endText record read.2 := by
  rcases List.exists_cons_of_ne_nil hne with ⟨m, members, rfl⟩
  rcases membersTokens_cons m members with ⟨tokens, htokens⟩
  rw [object_eq, htokens]
  rfl

theorem read_object (hlabel : ∀ field, form.field? (form.label field) = some field)
    {members : List (Field × List Token)} (hne : members ≠ [])
    (hvalues : ∀ m ∈ members, IsValue m.2) :
    form.read (object (form.labelled members)) =
      form.putEach form.empty members >>= form.finishObject := by
  rcases List.exists_cons_of_ne_nil hne with ⟨m, members, rfl⟩
  have hlabelled : form.labelled (m :: members) ≠ [] := List.cons_ne_nil _ _
  rw [read_object_of_ne_nil form hlabelled,
    readMembers_eq_putEach hlabel [] members form.empty m hvalues]
  cases form.putEach form.empty (m :: members) with
  | error fault => rfl
  | ok draft =>
      change (form.finishObject draft >>= fun record => endText record []) =
        form.finishObject draft
      cases form.finishObject draft <;> rfl

end Form

end BinaryMachine.Json
