import Mathlib.Data.List.Nodup
import BinaryMachine.Files
import BinaryMachine.Proofs.Segments.Leftmost

/-!
# The paths of entries

The path of an entry leads from where the path of its directory leads to the
entry with that name, wherever the directory lies and however its path is
written: with or without a slash at its end, through `.` and `..`, from the root
or not.  The one exception is a path that has grown too long.
-/

namespace BinaryMachine.Node

/-! ## Trees with proper names -/

/-- What an entry of a directory can be called. -/
structure IsName (name : String) : Prop where
  ne_empty : name ≠ ""
  ne_here : name ≠ "."
  ne_above : name ≠ ".."
  no_slash : '/' ∉ name.toList
  no_nul : '\x00' ∉ name.toList
  short : name.utf8ByteSize ≤ nameLimit

inductive WellFormed : Node → Prop
  | file (text : Option String) : WellFormed (.file text)
  | directory {entries : List (String × Node)} (names : ∀ entry ∈ entries, IsName entry.1)
      (nodup : (entries.map Prod.fst).Nodup) (below : ∀ entry ∈ entries, WellFormed entry.2) :
      WellFormed (.directory entries)

variable {root node child : Node} {entries : List (String × Node)} {first trail : Trail}
  {path name part : String} {parts : List String}

theorem lookup_eq_some_iff_mem (hnodup : (entries.map Prod.fst).Nodup) :
    entries.lookup name = some node ↔ (name, node) ∈ entries := by
  induction entries with
  | nil => simp
  | cons entry entries ih =>
      obtain ⟨first, below⟩ := entry
      rw [List.map_cons, List.nodup_cons] at hnodup
      rw [List.lookup_cons, List.mem_cons]
      by_cases hfirst : name = first
      · subst hfirst
        have hnone : ¬ (name, node) ∈ entries := fun hmem =>
          hnodup.1 (List.mem_map.2 ⟨_, hmem, rfl⟩)
        simp [hnone, eq_comm]
      · rw [beq_false_of_ne hfirst]
        simp [hfirst, ih hnodup.2]

theorem WellFormed.empty : empty.WellFormed :=
  .directory (by simp) (by simp) (by simp)

theorem WellFormed.directory_entries (h : node.WellFormed) :
    (Node.directory node.entries).WellFormed := by
  cases h with
  | file text => exact .empty
  | directory names nodup below => exact .directory names nodup below

theorem WellFormed.entry_getD (h : node.WellFormed) :
    ((node.entry? name).getD Node.empty).WellFormed := by
  cases hentry : node.entry? name with
  | none => exact .empty
  | some below =>
      cases h.directory_entries with
      | directory _ hnodup hbelow =>
          exact hbelow (name, below) ((lookup_eq_some_iff_mem hnodup).1 hentry)

theorem WellFormed.setEntry (h : node.WellFormed) (hname : IsName name)
    (hchild : child.WellFormed) : (node.setEntry name child).WellFormed := by
  cases h.directory_entries with
  | directory hnames hnodup hbelow =>
      refine .directory ?_ ?_ ?_
      · intro entry hmem
        rcases List.mem_append.1 hmem with hmem | hmem
        · exact hnames entry (List.mem_filter.1 hmem).1
        · rw [List.mem_singleton.1 hmem]
          exact hname
      · rw [List.map_append, List.nodup_append]
        refine ⟨(List.filter_sublist.map Prod.fst).nodup hnodup, by simp, ?_⟩
        intro old hold new hnew
        obtain ⟨entry, hentry, rfl⟩ := List.mem_map.1 hold
        have hne : entry.1 ≠ name := by
          simpa using (List.mem_filter.1 hentry).2
        rwa [List.mem_singleton.1 hnew]
      · intro entry hmem
        rcases List.mem_append.1 hmem with hmem | hmem
        · exact hbelow entry (List.mem_filter.1 hmem).1
        · rw [List.mem_singleton.1 hmem]
          exact hchild

theorem WellFormed.putFile (text : Option String) (h : node.WellFormed)
    (hparts : ∀ part ∈ parts, IsName part) : (putFile text parts node).WellFormed := by
  induction parts generalizing node with
  | nil => exact .file text
  | cons name parts ih =>
      rw [List.forall_mem_cons] at hparts
      exact h.setEntry hparts.1 (ih h.entry_getD hparts.2)

theorem WellFormed.putDirectory (h : node.WellFormed) (hparts : ∀ part ∈ parts, IsName part) :
    (putDirectory parts node).WellFormed := by
  induction parts generalizing node with
  | nil => exact h
  | cons name parts ih =>
      rw [List.forall_mem_cons] at hparts
      exact h.setEntry hparts.1 (ih h.entry_getD hparts.2)

/-! ## Following a path -/

theorem follow_eq_ok {next : Trail} (h : follow trail part = .ok next) :
    ∃ entries, here trail = directory entries ∧
      (next = trail ∨ next = trail.tail ∨
        ∃ node, entries.lookup part = some node ∧ next = node :: trail) := by
  unfold follow at h
  split at h
  · contradiction
  · next entries hhere =>
      refine ⟨entries, hhere, ?_⟩
      split_ifs at h
      · exact .inl (Except.ok.inj h).symm
      · exact .inr (.inl (Except.ok.inj h).symm)
      · split at h
        · next node hlookup => exact .inr (.inr ⟨node, hlookup, (Except.ok.inj h).symm⟩)
        · contradiction

theorem wellFormed_here (h : ∀ node ∈ trail, node.WellFormed) : (here trail).WellFormed := by
  cases trail with
  | nil => exact .empty
  | cons node trail => exact h node List.mem_cons_self

theorem wellFormed_of_follow {next : Trail} (htrail : ∀ node ∈ trail, node.WellFormed)
    (h : follow trail part = .ok next) : ∀ node ∈ next, node.WellFormed := by
  obtain ⟨entries, hhere, rfl | rfl | ⟨below, hlookup, rfl⟩⟩ := follow_eq_ok h
  · exact htrail
  · exact fun node hmem => htrail node (List.mem_of_mem_tail hmem)
  · have hwell := wellFormed_here htrail
    rw [hhere] at hwell
    cases hwell with
    | directory _ hnodup hbelow =>
        rw [List.forall_mem_cons]
        exact ⟨hbelow (part, below) ((lookup_eq_some_iff_mem hnodup).1 hlookup), htrail⟩

theorem followAll_append (parts more : List String) :
    followAll trail (parts ++ more) =
      (followAll trail parts).bind fun trail => followAll trail more := by
  induction parts generalizing trail with
  | nil => rfl
  | cons part parts ih =>
      simp only [List.cons_append, followAll]
      cases follow trail part with
      | error fault => rfl
      | ok next => exact ih

theorem wellFormed_of_followAll (htrail : ∀ node ∈ trail, node.WellFormed) {last : Trail}
    (h : followAll trail parts = .ok last) : ∀ node ∈ last, node.WellFormed := by
  induction parts generalizing trail with
  | nil =>
      cases h
      exact htrail
  | cons part parts ih =>
      simp only [followAll] at h
      cases hfollow : follow trail part with
      | error fault =>
          rw [hfollow] at h
          contradiction
      | ok next =>
          rw [hfollow] at h
          exact ih (wellFormed_of_follow htrail hfollow) h

/-- Where following a path begins. -/
def origin (root : Node) (path : String) : Trail :=
  if path.toList.head? = some '/' then [] else [root]

theorem resolve_eq (hnul : '\x00' ∉ path.toList) (hne : path ≠ "")
    (hshort : path.utf8ByteSize < pathLimit) :
    root.resolve path = (followAll (root.origin path) (pathParts path)).map here := by
  rw [resolve, if_neg hnul, if_neg hne, if_neg (Nat.not_le.2 hshort)]
  change (followAll (root.origin path) (pathParts path)).bind (fun trail => .ok (here trail)) = _
  cases followAll (root.origin path) (pathParts path) <;> rfl

theorem resolve_eq_ok_iff : root.resolve path = .ok node ↔
    '\x00' ∉ path.toList ∧ path ≠ "" ∧ path.utf8ByteSize < pathLimit ∧
      ∃ trail, followAll (root.origin path) (pathParts path) = .ok trail ∧ here trail = node := by
  by_cases hnul : '\x00' ∈ path.toList
  · simp [resolve, hnul]
  by_cases hne : path = ""
  · simp [resolve, hne]
  by_cases hshort : path.utf8ByteSize < pathLimit
  · rw [resolve_eq hnul hne hshort]
    cases followAll (root.origin path) (pathParts path) with
    | error fault => simp [Except.map]
    | ok trail => simp [Except.map, hnul, hne, hshort]
  · simp [resolve, hnul, hne, hshort, Nat.not_lt.1 hshort]

theorem WellFormed.resolve (hroot : root.WellFormed) (h : root.resolve path = .ok node) :
    node.WellFormed := by
  obtain ⟨-, -, -, trail, hfollow, rfl⟩ := resolve_eq_ok_iff.1 h
  apply wellFormed_here
  apply wellFormed_of_followAll ?_ hfollow
  intro node hmem
  unfold origin at hmem
  split at hmem
  · contradiction
  · rw [List.mem_singleton.1 hmem]
    exact hroot

theorem WellFormed.isName_of_resolve (hroot : root.WellFormed)
    (hpath : root.resolve path = .ok (Node.directory entries)) {entry : String × Node}
    (hentry : entry ∈ entries) : IsName entry.1 := by
  cases hroot.resolve hpath with
  | directory hnames _ _ => exact hnames entry hentry

theorem WellFormed.nodup_of_resolve (hroot : root.WellFormed)
    (hpath : root.resolve path = .ok (Node.directory entries)) :
    (entries.map Prod.fst).Nodup := by
  cases hroot.resolve hpath with
  | directory _ hnodup _ => exact hnodup

/-! ## The path of an entry -/

theorem pathParts_append (path : String) (hname : '/' ∉ name.toList) :
    pathParts (path ++ "/" ++ name) = pathParts path ++ [name] := by
  obtain ⟨cut, hcut⟩ : ∃ cut, path.toList.foldl (Cutting.feed ['/']) ⟨[], []⟩ = cut := ⟨_, rfl⟩
  have hslash : cut.feed ['/'] '/' = ⟨cut.current.reverse :: cut.closed, []⟩ := by
    simp [Cutting.feed]
  have hrest : name.toList.foldl (Cutting.feed ['/']) ⟨cut.current.reverse :: cut.closed, []⟩ =
      ⟨cut.current.reverse :: cut.closed, name.toList.reverse⟩ := by
    have hnot : ¬ ['/'] <:+: [] ++ name.toList := by
      intro hoccurs
      exact hname (hoccurs.subset (by simp))
    simpa using Cutting.foldl_feed_of_not_occurs name.toList
      ⟨cut.current.reverse :: cut.closed, []⟩ hnot
  have hparts : cutAt ['/'] (path ++ "/" ++ name).toList =
      cutAt ['/'] path.toList ++ [name.toList] := by
    simp only [cutAt, String.toList_append, List.foldl_append, List.reverse_singleton, hcut]
    rw [show "/".toList = ['/'] from rfl, List.foldl_cons, List.foldl_nil, hslash, hrest]
    simp [Cutting.segments]
  rw [pathParts, hparts, List.map_append, List.map_singleton, String.ofList_toList]
  rfl

theorem childPath_eq (path name : String) :
    ∃ stem, childPath path name = stem ++ "/" ++ name ∧ (path = stem ∨ path = stem ++ "/") := by
  unfold childPath
  split
  · next hlast =>
      obtain ⟨stem, hstem⟩ := List.getLast?_eq_some_iff.1 hlast
      have hpath : path = String.ofList stem ++ "/" := by
        rw [← String.toList_inj, hstem]
        simp
      exact ⟨String.ofList stem, by rw [← hpath], .inr hpath⟩
  · exact ⟨path, rfl, .inl rfl⟩

theorem childPath_inj {other : String} :
    childPath path name = childPath path other ↔ name = other := by
  unfold childPath
  split
  · exact String.append_right_inj path
  · exact String.append_right_inj (path ++ "/")

theorem utf8ByteSize_childPath_le (path name : String) :
    (childPath path name).utf8ByteSize ≤ path.utf8ByteSize + 1 + name.utf8ByteSize := by
  have hslash : "/".utf8ByteSize = 1 := rfl
  unfold childPath
  split <;>
  · simp only [String.utf8ByteSize_append]
    omega

theorem followAll_childPath (hname : '/' ∉ name.toList)
    (hfollow : followAll first (pathParts path) = .ok trail) :
    followAll first (pathParts (childPath path name)) = follow trail name := by
  have hlast : ∀ trail part, followAll trail [part] = follow trail part := by
    intro trail part
    simp only [followAll]
    cases follow trail part <;> rfl
  obtain ⟨stem, hchild, rfl | rfl⟩ := childPath_eq path name
  · rw [hchild, pathParts_append path hname, followAll_append, hfollow]
    exact hlast trail name
  · -- The slash at the end asks for a directory once more and leads nowhere else.
    have hslash : pathParts (stem ++ "/" ++ "") = pathParts stem ++ [""] :=
      pathParts_append stem (by simp)
    rw [String.append_empty] at hslash
    rw [hslash, followAll_append] at hfollow
    cases hstem : followAll first (pathParts stem) with
    | error fault =>
        rw [hstem] at hfollow
        contradiction
    | ok before =>
        have hsame : follow before "" = .ok trail := by
          rw [hstem] at hfollow
          exact (hlast before "").symm.trans hfollow
        have htrail : before = trail := by
          unfold follow at hsame
          split at hsame
          · contradiction
          · simpa using hsame
        rw [hchild, pathParts_append stem hname, followAll_append, hstem, htrail]
        exact hlast trail name

theorem follow_name (hname : IsName name) (hhere : here trail = directory entries)
    (hlookup : entries.lookup name = some node) : follow trail name = .ok (node :: trail) := by
  have hlimit := Nat.not_lt.2 hname.short
  simp [follow, hhere, hname.ne_empty, hname.ne_here, hname.ne_above, hlimit, hlookup]

theorem origin_childPath (hne : path ≠ "") :
    root.origin (childPath path name) = root.origin path := by
  obtain ⟨c, cs, hpath⟩ := List.exists_cons_of_ne_nil (by simpa using hne : path.toList ≠ [])
  unfold origin childPath
  split <;> simp [hpath]

theorem nul_notMem_childPath (hpath : '\x00' ∉ path.toList) (hname : '\x00' ∉ name.toList) :
    '\x00' ∉ (childPath path name).toList := by
  unfold childPath
  split <;> simp [hpath, hname]

theorem childPath_ne_empty (hname : name ≠ "") : childPath path name ≠ "" := by
  unfold childPath
  split <;> simp [hname]

theorem resolve_childPath_of_long (hpath : root.resolve path = .ok node) (hname : IsName name)
    (hlong : pathLimit ≤ (childPath path name).utf8ByteSize) :
    root.resolve (childPath path name) = .error .nameTooLong := by
  obtain ⟨hnul, -⟩ := resolve_eq_ok_iff.1 hpath
  rw [resolve, if_neg (nul_notMem_childPath hnul hname.no_nul),
    if_neg (childPath_ne_empty hname.ne_empty), if_pos hlong]

theorem resolve_childPath (hroot : root.WellFormed)
    (hpath : root.resolve path = .ok (directory entries)) (hentry : (name, node) ∈ entries)
    (hshort : (childPath path name).utf8ByteSize < pathLimit) :
    root.resolve (childPath path name) = .ok node := by
  obtain ⟨hnul, hne, -, trail, hfollow, hhere⟩ := resolve_eq_ok_iff.1 hpath
  have hname : IsName name := hroot.isName_of_resolve hpath hentry
  have hlookup := (lookup_eq_some_iff_mem (hroot.nodup_of_resolve hpath)).2 hentry
  have hchild := followAll_childPath hname.no_slash hfollow
  rw [follow_name hname hhere hlookup] at hchild
  refine resolve_eq_ok_iff.2 ⟨nul_notMem_childPath hnul hname.no_nul,
    childPath_ne_empty hname.ne_empty, hshort, node :: trail, ?_, rfl⟩
  rw [origin_childPath hne, hchild]

end BinaryMachine.Node
