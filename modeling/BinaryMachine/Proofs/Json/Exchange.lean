import BinaryMachine.Proofs.Json.Record

/-!
# Values that may stand for each other

If two values do the same in one field, whatever was read before, then it makes no
difference to a record which of the two it is given, be it an object or an array.
-/

namespace BinaryMachine.Json

/-! ## Lists of parts -/

theorem commaSeparated_cons_of_ne_nil (part : List Token) {parts : List (List Token)}
    (hne : parts ≠ []) : commaSeparated (part :: parts) = part ++ .comma :: commaSeparated parts := by
  rcases List.exists_cons_of_ne_nil hne with ⟨next, parts, rfl⟩
  exact commaSeparated_cons_cons part next parts

/-- What follows the first part does not depend on it. -/
theorem commaSeparated_cons_append (parts : List (List Token)) (rest : List Token) :
    ∃ tokens, ∀ part, commaSeparated (part :: parts) ++ rest = part ++ tokens := by
  cases parts with
  | nil => exact ⟨rest, fun part => by rw [commaSeparated, List.intercalate_singleton]⟩
  | cons next parts =>
      refine ⟨.comma :: commaSeparated (next :: parts) ++ rest, fun part => ?_⟩
      rw [commaSeparated_cons_cons, List.append_assoc]

theorem membersTokens_cons_of_ne_nil (m : String × List Token)
    {members : List (String × List Token)} (hne : members ≠ []) :
    membersTokens (m :: members) = member m.1 m.2 ++ .comma :: membersTokens members :=
  commaSeparated_cons_of_ne_nil (member m.1 m.2) (by simpa using hne)

theorem membersTokens_cons_append (key : String) (members : List (String × List Token))
    (rest : List Token) : ∃ tokens, ∀ value,
      membersTokens ((key, value) :: members) ++ rest = member key value ++ tokens := by
  rcases commaSeparated_cons_append (members.map fun m => member m.1 m.2) rest with
    ⟨tokens, htokens⟩
  exact ⟨tokens, fun value => htokens (member key value)⟩

/-! ## Fields -/

namespace Form

variable {Field Draft Record : Type}

/-- In this field the two values do the same. -/
structure Alike (form : Form Field Draft Record) (field : Field) (value value' : List Token) :
    Prop where
  passes : Passes value
  passes' : Passes value'
  put_eq : ∀ draft, form.put draft field value = form.put draft field value'

variable {form : Form Field Draft Record} {field : Field} {value value' : List Token}

theorem checkKey_eq_ok {key : String} (hfield : form.field? key = some field) {draft : Draft}
    {found : Option Field} (h : form.checkKey draft key = .ok found) : found = some field := by
  rw [checkKey, hfield] at h
  dsimp only at h
  split at h
  · cases h
  · cases h
    rfl

/-! ## Objects -/

/-- The induction is on the members in front; what comes behind is never looked at. -/
theorem readMembers_congr (h : form.Alike field value value') {key : String}
    (hfield : form.field? key = some field) (back : List (String × List Token))
    (rest : List Token) (front : List (String × List Token)) :
    ∀ draft : Draft, (∀ m ∈ front, Passes m.2) →
      form.readMembers draft (membersTokens (front ++ (key, value) :: back) ++ rest) =
        form.readMembers draft (membersTokens (front ++ (key, value') :: back) ++ rest) := by
  induction front with
  | nil =>
      intro draft _
      rcases membersTokens_cons_append key back rest with ⟨tokens, htokens⟩
      rw [List.nil_append, List.nil_append, htokens, htokens,
        readMembers_keyed form draft key h.passes, readMembers_keyed form draft key h.passes']
      cases hkey : form.checkKey draft key with
      | error fault => rfl
      | ok found =>
          cases checkKey_eq_ok hfield hkey
          change (form.put draft field value >>= _) = form.put draft field value' >>= _
          rw [h.put_eq]
  | cons m front ih =>
      intro draft hfront
      rw [List.forall_mem_cons] at hfront
      rw [List.cons_append, List.cons_append, membersTokens_cons_of_ne_nil m (by simp),
        membersTokens_cons_of_ne_nil m (by simp), List.append_assoc, List.append_assoc,
        readMembers_keyed form draft m.1 hfront.1, readMembers_keyed form draft m.1 hfront.1]
      have hgoesOn : ∀ draft : Draft,
          form.readOn draft (.comma :: membersTokens (front ++ (key, value) :: back) ++ rest) =
            form.readOn draft
              (.comma :: membersTokens (front ++ (key, value') :: back) ++ rest) :=
        fun draft => ih draft hfront.2
      simp only [hgoesOn]

theorem read_object_congr (h : form.Alike field value value') {key : String}
    (hfield : form.field? key = some field) {front : List (String × List Token)}
    (hfront : ∀ m ∈ front, Passes m.2) (back : List (String × List Token)) :
    form.read (object (front ++ (key, value) :: back)) =
      form.read (object (front ++ (key, value') :: back)) := by
  rw [read_object_of_ne_nil form (by simp), read_object_of_ne_nil form (by simp),
    readMembers_congr h hfield back [.closeBrace] front form.empty hfront]

/-! ## Arrays -/

/-- Behind an element the array is closed or goes on. -/
def readElementsOn (form : Form Field Draft Record) (draft : Draft) (fields : List Field) :
    List Token → Except ReadFault (Draft × List Token)
  | .closeBracket :: rest => .ok (draft, rest)
  | .comma :: rest => form.readElements draft fields rest
  | _ => .error .malformed

theorem readElements_cons (form : Form Field Draft Record) (draft : Draft) (field : Field)
    (fields : List Field) (hvalue : Passes value) (rest : List Token) :
    form.readElements draft (field :: fields) (value ++ rest) =
      form.put draft field value >>= fun draft => form.readElementsOn draft fields rest := by
  rw [readElements, hvalue.value?_eq]
  dsimp only
  cases form.put draft field value with
  | error fault => rfl
  | ok draft =>
      rcases rest with _ | ⟨token, rest⟩
      · rfl
      · cases token <;> rfl

theorem readElements_congr (h : form.Alike field value value') (fields : List Field)
    (back : List (List Token)) (rest : List Token) (front : List (List Token)) :
    ∀ (draft : Draft) (before : List Field), before.length = front.length →
      (∀ element ∈ front, Passes element) →
      form.readElements draft (before ++ field :: fields)
          (commaSeparated (front ++ value :: back) ++ rest) =
        form.readElements draft (before ++ field :: fields)
          (commaSeparated (front ++ value' :: back) ++ rest) := by
  induction front with
  | nil =>
      intro draft before hlength _
      cases List.length_eq_zero_iff.1 hlength
      rcases commaSeparated_cons_append back rest with ⟨tokens, htokens⟩
      rw [List.nil_append, List.nil_append, List.nil_append, htokens, htokens,
        readElements_cons form draft field fields h.passes,
        readElements_cons form draft field fields h.passes', h.put_eq]
  | cons element front ih =>
      intro draft before hlength hfront
      rw [List.forall_mem_cons] at hfront
      rcases List.exists_cons_of_length_eq_add_one hlength with ⟨first, before, rfl⟩
      rw [List.cons_append, List.cons_append, List.cons_append,
        commaSeparated_cons_of_ne_nil element (by simp),
        commaSeparated_cons_of_ne_nil element (by simp), List.append_assoc, List.append_assoc,
        readElements_cons form draft first _ hfront.1,
        readElements_cons form draft first _ hfront.1]
      have hgoesOn : ∀ draft : Draft,
          form.readElementsOn draft (before ++ field :: fields)
              (.comma :: commaSeparated (front ++ value :: back) ++ rest) =
            form.readElementsOn draft (before ++ field :: fields)
              (.comma :: commaSeparated (front ++ value' :: back) ++ rest) :=
        fun draft => ih draft before (Nat.succ.inj hlength) hfront.2
      simp only [hgoesOn]

/-- An array that is not empty does not start with its end. -/
theorem read_array_cons (form : Form Field Draft Record) (hvalue : Passes value)
    (elements : List (List Token)) :
    form.read (array (value :: elements)) =
      form.readElements form.empty form.fields
          (commaSeparated (value :: elements) ++ [.closeBracket]) >>=
        fun read => form.finishArray read.1 >>= fun record => endText record read.2 := by
  rcases commaSeparated_cons_append elements [.closeBracket] with ⟨tokens, htokens⟩
  rw [array, List.cons_append, htokens]
  have hwhole := hvalue.value?_eq []
  cases value with
  | nil => contradiction
  | cons token value =>
      cases token with
      | closeBracket => contradiction
      | _ => rfl

theorem read_array_congr (h : form.Alike field value value') {before fields : List Field}
    (hfields : form.fields = before ++ field :: fields) {front : List (List Token)}
    (hlength : before.length = front.length) (hfront : ∀ element ∈ front, Passes element)
    (back : List (List Token)) :
    form.read (array (front ++ value :: back)) = form.read (array (front ++ value' :: back)) := by
  have helements :=
    readElements_congr h fields back [.closeBracket] front form.empty before hlength hfront
  rw [← hfields] at helements
  cases front with
  | nil =>
      rw [List.nil_append, List.nil_append] at helements ⊢
      rw [read_array_cons form h.passes, read_array_cons form h.passes', helements]
  | cons element front =>
      rw [List.cons_append, List.cons_append] at helements ⊢
      rw [read_array_cons form (hfront element List.mem_cons_self),
        read_array_cons form (hfront element List.mem_cons_self), helements]

end Form

end BinaryMachine.Json
